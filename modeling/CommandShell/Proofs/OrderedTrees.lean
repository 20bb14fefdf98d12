import CommandShell.Proofs.FileContents
import CommandShell.Proofs.Frame
import CommandShell.Proofs.Lasting
import CommandShell.Proofs.ReadBack
import CommandShell.Proofs.SortedLines
import Mathlib.Data.List.TakeWhile

/-! # Trees in order

Every folder lists its entries by name, in order and each name once, and the working folder is
there. Files are written and removed and folders are made at places to which paths lead, and a path
leads through folders that stay; so a line that is run leaves such a tree as one. -/

namespace CommandShell

namespace Path

/-- A name that can stand in a path. -/
def isName (n : Text) : Bool := !n.isEmpty && !n.contains '/'

theorem isName_iff {n : Text} : isName n = true ↔ n ≠ [] ∧ '/' ∉ n := by
  simp [isName]

theorem notMem_of_mem_names {path n : Text} (h : n ∈ names path) : '/' ∉ n := by
  rw [names] at h
  fun_induction Text.splitOnMark '/' path generalizing n with
  | case1 =>
      obtain rfl := List.mem_singleton.mp h
      exact List.not_mem_nil
  | case2 cs ih =>
      rcases List.mem_cons.mp h with rfl | h
      · exact List.not_mem_nil
      · exact ih h
  | case3 c cs hc hsplit ih => exact absurd hsplit (Text.splitOnMark_ne_nil '/' cs)
  | case4 c cs hc p ps hsplit ih =>
      rw [hsplit] at ih
      rcases List.mem_cons.mp h with rfl | h
      · have hp := ih List.mem_cons_self
        simp [hp, Ne.symm hc]
      · exact ih (List.mem_cons_of_mem _ h)

end Path

/-! ### Entries -/

namespace Entry

mutual
/-- Every folder lists its entries under names, in code-point order and each name once. -/
def isOrdered : Entry → Bool
  | .file _ => true
  | .folder items => allOrdered items

def allOrdered : List (Text × Entry) → Bool
  | [] => true
  | (n, e) :: rest =>
      Path.isName n && rest.all (fun x => !Text.ble x.1 n) && e.isOrdered && allOrdered rest
end

section Ordered

variable {items : List (Text × Entry)} {n : Text} {e new : Entry} {p : Place}

theorem allOrdered_iff : allOrdered items = true ↔
    (∀ x ∈ items, Path.isName x.1 = true ∧ x.2.isOrdered = true) ∧
      items.Pairwise fun x y => x.1 < y.1 := by
  induction items with
  | nil => simp [allOrdered]
  | cons x rest ih =>
      obtain ⟨n, e⟩ := x
      have hless : ∀ m : Text, (!Text.ble m n) = true ↔ n < m := by
        intro m
        rw [Bool.not_eq_true', ← Bool.not_eq_true, Text.ble_iff, not_not]
      simp only [allOrdered, Bool.and_eq_true, List.all_eq_true, hless, ih, List.forall_mem_cons,
        List.pairwise_cons]
      exact ⟨fun ⟨⟨⟨hn, hbefore⟩, he⟩, hrest, hsorted⟩ => ⟨⟨⟨hn, he⟩, hrest⟩, hbefore, hsorted⟩,
        fun ⟨⟨⟨hn, he⟩, hrest⟩, hbefore, hsorted⟩ => ⟨⟨⟨hn, hbefore⟩, he⟩, hrest, hsorted⟩⟩

/-- In an ordered listing an entry is found under its name. -/
theorem lookup_eq_some_iff (h : items.Pairwise fun x y => x.1 < y.1) :
    items.lookup n = some e ↔ (n, e) ∈ items := by
  induction items with
  | nil => simp
  | cons x rest ih =>
      obtain ⟨m, f⟩ := x
      obtain ⟨hbefore, hrest⟩ := List.pairwise_cons.mp h
      rw [List.lookup_cons, List.mem_cons, Prod.mk.injEq]
      by_cases hnm : n = m
      · subst hnm
        have hnot : (n, e) ∉ rest := fun hmem => List.lt_irrefl n (hbefore _ hmem)
        simp [hnot, eq_comm]
      · have hne : (n == m) = false := by simpa using hnm
        simp [hne, hnm, ih hrest]

/-- The entry at a place below an ordered one is ordered too, and the place has proper names. -/
theorem isOrdered_get? {p : Place} {e f : Entry} (he : e.isOrdered = true)
    (h : e.get? p = some f) : f.isOrdered = true ∧ ∀ n ∈ p, Path.isName n = true := by
  induction p generalizing e with
  | nil =>
      obtain rfl : e = f := Option.some.inj h
      exact ⟨he, List.forall_mem_nil _⟩
  | cons n p ih =>
      rw [get?] at h
      obtain ⟨child, hchild, hbelow⟩ := Option.bind_eq_some_iff.mp h
      cases e with
      | file c => cases hchild
      | folder items =>
          obtain ⟨hitems, hsorted⟩ := allOrdered_iff.mp he
          obtain ⟨hn, hordered⟩ := hitems _ ((lookup_eq_some_iff hsorted).mp hchild)
          obtain ⟨hf, hp⟩ := ih hordered hbelow
          exact ⟨hf, List.forall_mem_cons.mpr ⟨hn, hp⟩⟩

theorem allOrdered_items (he : e.isOrdered = true) : allOrdered e.items = true := by
  cases e with
  | file c => rfl
  | folder items => exact he

theorem mem_insertItem {x : Text × Entry} (h : x ∈ insertItem n e items) :
    x = (n, e) ∨ x ∈ items := by
  fun_induction insertItem n e items with
  | case1 => exact Or.inl (List.mem_singleton.mp h)
  | case2 f rest => exact (List.mem_cons.mp h).imp_right (List.mem_cons_of_mem _)
  | case3 m f rest => exact List.mem_cons.mp h
  | case4 m f rest hm hb ih =>
      rcases List.mem_cons.mp h with rfl | h
      · exact Or.inr List.mem_cons_self
      · exact (ih h).imp_right (List.mem_cons_of_mem _)

theorem pairwise_insertItem (h : items.Pairwise fun x y => x.1 < y.1) :
    (insertItem n e items).Pairwise fun x y => x.1 < y.1 := by
  fun_induction insertItem n e items with
  | case1 => exact List.pairwise_singleton _ _
  | case2 f rest => exact List.pairwise_cons.mpr (List.pairwise_cons.mp h)
  | case3 m f rest hm hb =>
      have hlt : n < m := (List.le_iff_lt_or_eq.mp (Text.ble_iff.mp hb)).resolve_right (Ne.symm hm)
      refine List.pairwise_cons.mpr ⟨?_, h⟩
      intro x hx
      rcases List.mem_cons.mp hx with rfl | hx
      · exact hlt
      · exact List.lt_trans hlt ((List.pairwise_cons.mp h).1 x hx)
  | case4 m f rest hm hb ih =>
      obtain ⟨hbefore, hrest⟩ := List.pairwise_cons.mp h
      refine List.pairwise_cons.mpr ⟨?_, ih hrest⟩
      intro x hx
      rcases mem_insertItem hx with rfl | hx
      · exact not_not.mp (mt Text.ble_iff.mpr hb)
      · exact hbefore x hx

theorem allOrdered_insertItem (h : allOrdered items = true) (hn : Path.isName n = true)
    (he : e.isOrdered = true) : allOrdered (insertItem n e items) = true := by
  obtain ⟨hitems, hsorted⟩ := allOrdered_iff.mp h
  refine allOrdered_iff.mpr ⟨fun x hx => ?_, pairwise_insertItem hsorted⟩
  rcases mem_insertItem hx with rfl | hx
  · exact ⟨hn, he⟩
  · exact hitems x hx

/-- What is found under a name. -/
theorem isOrdered_lookup (he : e.isOrdered = true) {f : Entry}
    (h : e.items.lookup n = some f) : Path.isName n = true ∧ f.isOrdered = true := by
  obtain ⟨hitems, hsorted⟩ := allOrdered_iff.mp (allOrdered_items he)
  exact hitems _ ((lookup_eq_some_iff hsorted).mp h)

theorem isOrdered_put (he : e.isOrdered = true) (hnew : new.isOrdered = true)
    (hp : ∀ n ∈ p, Path.isName n = true) : (put new p e).isOrdered = true := by
  induction p generalizing e with
  | nil => exact hnew
  | cons n p ih =>
      obtain ⟨hn, hrest⟩ := List.forall_mem_cons.mp hp
      have hchild : ((e.items.lookup n).getD (.folder [])).isOrdered = true := by
        cases hl : e.items.lookup n with
        | none => rfl
        | some f => exact (isOrdered_lookup he hl).2
      exact allOrdered_insertItem (allOrdered_items he) hn (ih hchild hrest)

theorem isOrdered_erase (he : e.isOrdered = true) (p : Place) : (erase p e).isOrdered = true := by
  fun_induction erase p e with
  | case1 => exact he
  | case2 n e =>
      obtain ⟨hitems, hsorted⟩ := allOrdered_iff.mp (allOrdered_items he)
      exact allOrdered_iff.mpr ⟨fun x hx => hitems x (List.mem_filter.mp hx).1, hsorted.filter _⟩
  | case3 n m ns e f hl ih =>
      obtain ⟨hn, hf⟩ := isOrdered_lookup he hl
      exact allOrdered_insertItem (allOrdered_items he) hn (ih hf)
  | case4 => exact he

end Ordered

theorem lookup_filter_of_ne {n m : Text} (h : m ≠ n) (items : List (Text × Entry)) :
    (items.filter fun x => x.1 ≠ n).lookup m = items.lookup m := by
  induction items with
  | nil => rfl
  | cons x rest ih =>
      obtain ⟨k, e⟩ := x
      by_cases hk : k = n
      · have hmk : (m == k) = false := by simpa [hk] using h
        rw [List.filter_cons_of_neg (by simpa using hk), ih, List.lookup_cons, hmk]
      · rw [List.filter_cons_of_pos (by simpa using hk), List.lookup_cons, List.lookup_cons, ih]

theorem lookup_filter_self (n : Text) (items : List (Text × Entry)) :
    (items.filter fun x => x.1 ≠ n).lookup n = none := by
  rw [List.lookup_eq_none_iff]
  intro x hx
  have hx : x.1 ≠ n := by simpa using (List.mem_filter.mp hx).2
  exact bne_iff_ne.mpr hx.symm

theorem held_eq_none_iff {e : Entry} : e.held = none ↔ ∃ items, e = .folder items := by
  cases e <;> simp [held]

/-- Only a folder has something in it. -/
theorem held_of_lookup {e f : Entry} {n : Text} (h : e.items.lookup n = some f) :
    e.held = none := by
  cases e with
  | file c => cases h
  | folder items => rfl

/-- A file that is removed is gone, and every other place is as it was. -/
theorem held_get?_erase {root : Entry} {p q : Place} {c : Content} (hne : p ≠ [])
    (hp : root.get? p = some (.file c)) :
    ((erase p root).get? q).map held = if q = p then none else (root.get? q).map held := by
  fun_induction erase p root generalizing q with
  | case1 e => exact absurd rfl hne
  | case2 n e =>
      obtain ⟨f, hf, hfile⟩ := Option.bind_eq_some_iff.mp hp
      obtain rfl : f = .file c := Option.some.inj hfile
      cases q with
      | nil =>
          rw [if_neg (List.cons_ne_nil n []).symm]
          exact congrArg some (held_of_lookup hf).symm
      | cons m q =>
          rw [get?, items]
          by_cases hmn : m = n
          · subst hmn
            rw [lookup_filter_self, get?, hf]
            cases q <;> simp [get?_file_cons]
          · have hother : ¬ m :: q = [n] := fun heq => hmn (List.cons.inj heq).1
            rw [lookup_filter_of_ne hmn, if_neg hother, get?]
  | case3 n k ns e f hl ih =>
      rw [get?, hl, Option.bind_some] at hp
      cases q with
      | nil =>
          rw [if_neg (List.cons_ne_nil n (k :: ns)).symm]
          exact congrArg some (held_of_lookup hl).symm
      | cons m q =>
          rw [get?, items]
          by_cases hmn : m = n
          · subst hmn
            rw [lookup_insertItem_self, Option.bind_some, ih (List.cons_ne_nil k ns) hp, get?, hl,
              Option.bind_some]
            simp only [List.cons.injEq, true_and]
          · have hother : ¬ m :: q = n :: k :: ns := fun heq => hmn (List.cons.inj heq).1
            rw [lookup_insertItem_of_ne hmn, if_neg hother, get?]
  | case4 n k ns e hl =>
      rw [get?, hl] at hp
      cases hp

/-- A folder stays when a file is removed. -/
theorem exists_folder_erase {root : Entry} {p q : Place} {inside : List (Text × Entry)}
    {c : Content} (hq : root.get? q = some (.folder inside)) (hp : root.get? p = some (.file c)) :
    ∃ inside', (erase p root).get? q = some (.folder inside') := by
  have hpq : q ≠ p := by
    rintro rfl
    rw [hq] at hp
    cases hp
  have hne : p ≠ [] := by
    rintro rfl
    obtain rfl : root = .file c := Option.some.inj hp
    cases q with
    | nil => exact hpq rfl
    | cons n ns => cases hq
  have hheld := (held_get?_erase hne hp).trans (if_neg hpq)
  rw [hq, Option.map_some] at hheld
  obtain ⟨f, hf, hnone⟩ := Option.map_eq_some_iff.mp hheld
  obtain ⟨items, rfl⟩ := held_eq_none_iff.mp hnone
  exact ⟨items, hf⟩

end Entry

/-! ### Worlds -/

namespace World

variable {w : World} {path : Text}

/-- A tree in order, with the working folder in it. -/
structure WellFormed (w : World) : Prop where
  ordered : w.root.isOrdered = true
  here : ∃ items, w.root.get? w.here = some (.folder items)

theorem isOrdered_entryAt {w : World} (hw : w.root.isOrdered = true) {path : Text} {e : Entry}
    (h : w.entryAt path = .ok e) : e.isOrdered = true := by
  rw [entryAt] at h
  cases hl : w.locate path with
  | error e => simp [hl] at h
  | ok p =>
      rw [hl] at h
      obtain rfl := Except.ok.inj h
      cases he : w.root.get? p with
      | none => rfl
      | some f => exact (Entry.isOrdered_get? hw he).1

/-- Something that is put where no folder is. -/
theorem WellFormed.put (hw : w.WellFormed) {new : Entry} (hnew : new.isOrdered = true) {p : Place}
    {n : Text} (hp : ∃ items, w.root.get? p = some (.folder items)) (hn : Path.isName n = true)
    (hfree : ∀ xs, w.root.get? (p ++ [n]) ≠ some (.folder xs)) :
    WellFormed { w with root := Entry.put new (p ++ [n]) w.root } := by
  obtain ⟨items, hitems⟩ := hp
  obtain ⟨inside, hinside⟩ := hw.here
  have hnames : ∀ m ∈ p ++ [n], Path.isName m = true :=
    List.forall_mem_append.mpr
      ⟨(Entry.isOrdered_get? hw.ordered hitems).2, List.forall_mem_singleton.mpr hn⟩
  obtain ⟨inside', hstays, -⟩ := Entry.exists_folder_put new hinside hfree
  exact ⟨Entry.isOrdered_put hw.ordered hnew hnames, inside', hstays⟩

theorem WellFormed.writeText {w' : World} {append : Bool} {t : Text} (hw : w.WellFormed)
    (h : w.writeText path append t = .ok w') : w'.WellFormed := by
  obtain ⟨p, n, c, hleads, hfree, rfl⟩ := exists_of_writeText h
  have hlast : n ∈ Path.names path := by
    rw [hleads.names]
    exact List.mem_concat_self
  have hn : Path.isName n = true :=
    Path.isName_iff.mpr ⟨hleads.proper.1, Path.notMem_of_mem_names hlast⟩
  exact hw.put rfl hleads.isFolder hn hfree

/-- The last name of a path, empty names at the end apart. -/
theorem isName_trimNames (hrelative : ¬ (path.isEmpty || Path.isAbsolute path) = true) :
    Path.isName ((trimNames (Path.names path)).getLast?.getD []) = true := by
  have hfirst : ∃ n ∈ Path.names path, n ≠ [] := by
    cases path with
    | nil => exact absurd rfl hrelative
    | cons c cs =>
        have hc : c ≠ '/' := by simpa [Path.isAbsolute] using hrelative
        rw [Path.names, Text.splitOnMark, if_neg hc]
        cases Text.splitOnMark '/' cs with
        | nil => exact ⟨[c], List.mem_singleton_self _, List.cons_ne_nil _ _⟩
        | cons p ps => exact ⟨c :: p, List.mem_cons_self, List.cons_ne_nil _ _⟩
  have hne : (Path.names path).reverse.dropWhile List.isEmpty ≠ [] := by
    rw [ne_eq, List.dropWhile_eq_nil_iff]
    intro hall
    obtain ⟨n, hn, hnonempty⟩ := hfirst
    exact hnonempty (List.isEmpty_iff.mp (hall n (List.mem_reverse.mpr hn)))
  have hlast := List.head_dropWhile_not List.isEmpty hne
  have hmem := List.mem_reverse.mp
    ((List.dropWhile_sublist List.isEmpty).subset (List.head_mem hne))
  rw [trimNames, List.getLast?_reverse, List.head?_eq_some_head hne, Option.getD_some]
  exact Path.isName_iff.mpr
    ⟨fun hnil => by simp [hnil] at hlast, Path.notMem_of_mem_names hmem⟩

theorem exists_of_folderPlace {place : Place} (h : w.folderPlace path = .ok place) :
    ∃ p n, place = p ++ [n] ∧ (∃ items, w.root.get? p = some (.folder items)) ∧
      Path.isName n = true ∧ w.root.get? place = none := by
  rw [folderPlace] at h
  cases hparent : w.parentPlace path with
  | error e => simp [hparent] at h
  | ok found =>
      obtain ⟨p, n⟩ := found
      obtain ⟨-, hrelative, -, hfolder, hn⟩ := parentPlace_eq_ok hparent
      simp only [hparent] at h
      split at h
      · cases h
      · split at h
        · cases h
        · cases hfree : w.root.get? (p ++ [n]) with
          | some e => simp [hfree] at h
          | none =>
              simp only [hfree, Except.ok.injEq] at h
              exact ⟨p, n, h.symm, hfolder, hn ▸ isName_trimNames hrelative, h ▸ hfree⟩

theorem WellFormed.makeFolder (hw : w.WellFormed) (path : Text) :
    (w.makeFolder path).1.WellFormed := by
  rw [World.makeFolder]
  split
  · exact hw
  · cases hplace : w.folderPlace path with
    | error e => exact hw
    | ok place =>
        obtain ⟨p, n, rfl, hfolder, hn, hfree⟩ := exists_of_folderPlace hplace
        exact hw.put rfl hfolder hn fun xs hxs => by rw [hfree] at hxs; cases hxs

theorem WellFormed.makeFolders (hw : w.WellFormed) (fuel : Nat) (path : Text) :
    (makeFolders fuel path w).1.WellFormed := by
  induction fuel generalizing path with
  | zero => exact hw
  | succ fuel ih =>
      have habove : ∀ {above : Text} {w' : World} {fault : Option Fault},
          World.makeFolders fuel above w = (w', fault) → w'.WellFormed := by
        intro above w' fault hmade
        simpa only [hmade] using ih above
      have hlast : ∀ {w' : World} (last : Text), w'.WellFormed →
          (if last = ['.'] then (w', none) else w'.makeFolder path).1.WellFormed := by
        intro w' last hw'
        split
        · exact hw'
        · exact hw'.makeFolder path
      rw [World.makeFolders]
      generalize (if (Path.lastName path).isEmpty then Path.parent path else path) = short
      split
      · split
        next hmade => exact hlast _ (habove hmade)
        next hmade => exact hlast _ (habove hmade)
        next hmade => exact habove hmade
      · exact hw.makeFolder path

theorem WellFormed.removeFile (hw : w.WellFormed) {p : Place} {c : Content}
    (h : w.root.get? p = some (.file c)) : (w.removeFile p).WellFormed := by
  obtain ⟨inside, hinside⟩ := hw.here
  exact ⟨Entry.isOrdered_erase hw.ordered p, Entry.exists_folder_erase hinside h⟩

theorem exists_file_of_hasFile (h : w.hasFile path = true) {p : Place}
    (hp : w.locate path = .ok p) : ∃ c, w.root.get? p = some (.file c) := by
  rw [hasFile, entryAt, hp, Bool.and_eq_true] at h
  cases he : w.root.get? p with
  | none => simp [he, Entry.isFile] at h
  | some e =>
      cases e with
      | folder items => simp [he, Entry.isFile] at h
      | file c => exact ⟨c, rfl⟩

end World

/-! ### Applications -/

namespace Application

variable {w : World}

theorem wellFormed_makeOne (v : Value) (hw : w.WellFormed) : (makeOne v w).1.WellFormed := by
  cases v with
  | list xs => exact hw
  | text t =>
      rw [makeOne]
      split
      · exact hw
      · exact hw.makeFolders _ _

theorem wellFormed_removeOne (v : Value) (hw : w.WellFormed) : (removeOne v w).1.WellFormed := by
  cases v with
  | list xs => exact hw
  | text t =>
      rw [removeOne]
      split
      next hfile =>
        cases hp : w.locate (Text.strip t) with
        | error e => exact hw
        | ok p =>
            obtain ⟨c, hc⟩ := World.exists_file_of_hasFile hfile hp
            exact hw.removeFile hc
      next => exact hw

theorem wellFormed_withNames {f : Value → World → World × Option Fault}
    (hf : ∀ v w, w.WellFormed → (f v w).1.WellFormed) (args : List Value) (hw : w.WellFormed) :
    (withNames f args w).world.WellFormed := by
  have heach : ∀ (vs : List Value) (w : World), w.WellFormed → (forEach f vs w).1.WellFormed := by
    intro vs
    induction vs with
    | nil => exact fun _ hw => hw
    | cons v vs ih =>
        intro w hw
        have hstep := hf v w hw
        rw [forEach]
        split
        next w' e hdone => simpa only [hdone] using hstep
        next w' hdone => exact ih w' (by simpa only [hdone] using hstep)
  unfold withNames
  split
  · exact hw
  · split
    · exact hw
    · exact heach _ _ hw

theorem wellFormed_runCd (args : List Value) (hw : w.WellFormed) :
    (runCd args w).world.WellFormed := by
  unfold runCd
  split
  · exact hw
  · exact hw
  · split
    · exact hw
    · split
      · exact hw
      · split
        next items hitems => exact ⟨hw.ordered, items, hitems⟩
        next => exact hw

theorem wellFormed_exec (a : Application) (args : List Value) (hw : w.WellFormed) :
    (a.exec args w).world.WellFormed := by
  have hsame : ∀ {e : Effect}, e.world = w → e.world.WellFormed := fun he => he ▸ hw
  cases a with
  | cat | echo | pwd => exact hw
  | cd => exact wellFormed_runCd args hw
  | cut => exact hsame (world_runCut args w)
  | find => exact hsame (world_runFind args w)
  | grep => exact hsame (world_runGrep args w)
  | head => exact hsame (world_runHead args w)
  | ls => exact hsame (world_runLs args w)
  | mkdir => exact wellFormed_withNames (fun v _ => wellFormed_makeOne v) args hw
  | rm => exact wellFormed_withNames (fun v _ => wellFormed_removeOne v) args hw
  | sort => exact hsame (world_runSort args w)
  | tail => exact hsame (world_runTail args w)
  | uniq => exact hsame (world_runUniq args w)
  | wc => exact hsame (world_runWc args w)

end Application

theorem World.lasting_wellFormed : Lasting WellFormed where
  print _ hw := ⟨hw.ordered, hw.here⟩
  warn _ hw := ⟨hw.ordered, hw.here⟩
  write h hw := hw.writeText h
  exec a args hw := Application.wellFormed_exec a args hw

/-- A line that is run leaves the tree in order and the working folder in it. -/
theorem wellFormed_runLine {w : World} (hw : w.WellFormed) (line : Text) (out : List Value) :
    (runLine line out w).2.1.WellFormed := World.lasting_wellFormed.runLine line out hw

end CommandShell
