import CommandShell.Proofs.OrderedTrees
import CommandShell.Proofs.Wildcards

/-! # The files that a search finds

A search goes through the folders below its path and lists every file with a fitting name once: the
files of a folder before those of the folders in it, both in the order of their names. Each is shown
by the path of the search with the names that lead to the file behind it. A folder whose path is too
long cannot be opened, so that the files below it are missing. -/

namespace CommandShell

/-! ### Paths with names behind them -/

namespace Path

/-- A path with names behind it, one after another. -/
def extend (path : Text) (p : Place) : Text := p.foldl join path

/-- What is put between a path and a name. -/
def gap (path : Text) : Text := if path.isEmpty || path.getLast? = some '/' then [] else ['/']

section Join

variable {path n t : Text}

theorem isAbsolute_append (hn : isName n = true) (t : Text) : isAbsolute (n ++ t) = false := by
  obtain ⟨hne, hslash⟩ := isName_iff.mp hn
  obtain ⟨c, cs, rfl⟩ := List.exists_cons_of_ne_nil hne
  have hc : c ≠ '/' := fun h => hslash (h ▸ List.mem_cons_self)
  simp [isAbsolute, hc]

theorem isAbsolute_name (hn : isName n = true) : isAbsolute n = false := by
  have happend := isAbsolute_append hn []
  rwa [List.append_nil] at happend

theorem join_eq (h : isAbsolute t = false) : join path t = path ++ (gap path ++ t) := by
  rw [join, if_neg (by simp [h]), gap]
  split <;> rfl

theorem gap_append_name (hn : isName n = true) (t : Text) : gap (t ++ n) = ['/'] := by
  obtain ⟨hne, hslash⟩ := isName_iff.mp hn
  have hlast : n.getLast? ≠ some '/' := fun h => hslash (List.mem_of_getLast? h)
  rw [gap, List.getLast?_append_of_ne_nil _ hne]
  simp [hne, hlast]

theorem join_join (hn : isName n = true) (ht : isAbsolute t = false) :
    join (join path n) t = join path (n ++ '/' :: t) := by
  rw [join_eq ht, join_eq (isAbsolute_append hn _), join_eq (isAbsolute_name hn),
    ← List.append_assoc path, gap_append_name hn]
  simp

theorem extend_concat (path : Text) (p : Place) (n : Text) :
    extend path (p ++ [n]) = join (extend path p) n := by
  rw [extend, List.foldl_append, ← extend]
  rfl

/-- Names behind a path are the path that they make up, behind it. -/
theorem extend_eq_join {p : Place} (hp : p ≠ []) (hnames : ∀ n ∈ p, isName n = true) :
    extend path p = join path (ofPlace p) := by
  induction p generalizing path with
  | nil => exact absurd rfl hp
  | cons n p ih =>
      obtain ⟨hn, hrest⟩ := List.forall_mem_cons.mp hnames
      cases p with
      | nil => rfl
      | cons m p =>
          have hm := hrest m List.mem_cons_self
          have hrelative : isAbsolute (ofPlace (m :: p)) = false := by
            cases p with
            | nil => exact isAbsolute_name hm
            | cons k p => exact isAbsolute_append hm _
          have hstep : extend (join path n) (m :: p) = join (join path n) (ofPlace (m :: p)) :=
            ih (List.cons_ne_nil m p) hrest
          rw [join_join hn hrelative] at hstep
          exact hstep

theorem length_encode_join (hn : isName n = true) :
    (Text.encode path).length ≤ (Text.encode (join path n)).length := by
  rw [join_eq (isAbsolute_name hn), Text.encode, Text.encode, List.flatMap_append,
    List.length_append]
  exact Nat.le_add_right _ _

end Join

end Path

/-! ### Trees of files -/

namespace Entry

mutual
/-- What holds of files, and of a folder if it holds of the entries in it, holds of all entries. -/
theorem ind {P : Entry → Prop} (hfile : ∀ c, P (.file c))
    (hfolder : ∀ items : List (Text × Entry), (∀ x ∈ items, P x.2) → P (.folder items)) :
    ∀ e, P e
  | .file c => hfile c
  | .folder items => hfolder items (indAll hfile hfolder items)

theorem indAll {P : Entry → Prop} (hfile : ∀ c, P (.file c))
    (hfolder : ∀ items : List (Text × Entry), (∀ x ∈ items, P x.2) → P (.folder items)) :
    ∀ items : List (Text × Entry), ∀ x ∈ items, P x.2
  | [] => List.forall_mem_nil _
  | (_, e) :: rest => List.forall_mem_cons.mpr ⟨ind hfile hfolder e, indAll hfile hfolder rest⟩
end

/-- The order in which files are listed: the files of a folder before those of the folders in it,
both by name. -/
def Precedes : Place → Place → Prop
  | [m], [n] => m < n
  | [_], _ :: _ :: _ => True
  | m :: k :: p, n :: l :: q => m < n ∨ m = n ∧ Precedes (k :: p) (l :: q)
  | _, _ => False

theorem precedes_irrefl (p : Place) : ¬ Precedes p p := by
  induction p with
  | nil => exact id
  | cons n p ih =>
      cases p with
      | nil => exact List.lt_irrefl n
      | cons k p => exact fun h => h.elim (List.lt_irrefl n) fun hrest => ih hrest.2

theorem precedes_cons {n : Text} {p q : Place} (h : Precedes p q) : Precedes (n :: p) (n :: q) := by
  cases p with
  | nil => cases q <;> exact h.elim
  | cons k p =>
      cases q with
      | nil => cases p <;> exact h.elim
      | cons l q => exact Or.inr ⟨rfl, h⟩

theorem precedes_of_lt {m n : Text} {p q : Place} (hp : p ≠ []) (hq : q ≠ []) (h : m < n) :
    Precedes (m :: p) (n :: q) := by
  obtain ⟨k, p, rfl⟩ := List.exists_cons_of_ne_nil hp
  obtain ⟨l, q, rfl⟩ := List.exists_cons_of_ne_nil hq
  exact Or.inl h

end Entry

/-! ### The places of the files -/

namespace Application

/-- Can the folder of a file be opened that is at a place below a path? -/
def Opens (path : Text) (r : Place) : Prop :=
  ¬ World.pathLimit < (Text.encode (Path.extend path r.dropLast)).length

mutual
/-- The places of the files below an entry, in the order in which they are listed. -/
def filePlaces (path : Text) : Entry → List Place
  | .file _ => []
  | .folder items =>
      if World.pathLimit < (Text.encode path).length then []
      else (items.filter (fun x => x.2.isFile)).map (fun x => [x.1]) ++ placesInside path items

def placesInside (path : Text) : List (Text × Entry) → List Place
  | [] => []
  | (n, e) :: rest =>
      (filePlaces (Path.join path n) e).map (n :: ·) ++ placesInside path rest
end

section Places

variable {path : Text} {items : List (Text × Entry)} {e : Entry} {r : Place}

theorem placesInside_eq (path : Text) (items : List (Text × Entry)) :
    placesInside path items =
      items.flatMap fun x => (filePlaces (Path.join path x.1) x.2).map (x.1 :: ·) := by
  induction items with
  | nil => rfl
  | cons x rest ih => rw [placesInside, ih, List.flatMap_cons]

theorem filesInside_eq (path : Text) (items : List (Text × Entry)) :
    filesInside path items = items.flatMap fun x => filesBelow (Path.join path x.1) x.2 := by
  induction items with
  | nil => rfl
  | cons x rest ih => rw [filesInside, ih, List.flatMap_cons]

theorem ne_nil_of_mem_filePlaces (h : r ∈ filePlaces path e) : r ≠ [] := by
  rintro rfl
  cases e with
  | file c => cases h
  | folder items =>
      rw [filePlaces] at h
      split at h
      · cases h
      · simp [placesInside_eq] at h

/-- A file is shown with the path of its folder and its name. -/
def shown (path : Text) (r : Place) : Text × Text :=
  (Path.extend path r.dropLast, r.getLast?.getD [])

theorem filesBelow_eq (path : Text) (e : Entry) :
    filesBelow path e = (filePlaces path e).map (shown path) := by
  induction e using Entry.ind generalizing path with
  | hfile c => rfl
  | hfolder items ih =>
      rw [filesBelow, filePlaces]
      split
      · rfl
      · rw [List.map_append, List.map_map, filesInside_eq, placesInside_eq, List.map_flatMap]
        congr 1
        refine List.flatMap_congr fun x hx => ?_
        rw [ih x hx, List.map_map]
        refine List.map_congr_left fun r hr => ?_
        obtain ⟨k, s, rfl⟩ := List.exists_cons_of_ne_nil (ne_nil_of_mem_filePlaces hr)
        simp [shown, Path.extend]

theorem opens_of_mem_filePlaces (h : r ∈ filePlaces path e) :
    ¬ World.pathLimit < (Text.encode path).length := by
  cases e with
  | file c => cases h
  | folder items =>
      rw [filePlaces] at h
      split at h
      · cases h
      · assumption

/-- A file of a folder itself. -/
theorem singleton_mem_filePlaces {n : Text} :
    [n] ∈ filePlaces path (.folder items) ↔ (∃ c, (n, .file c) ∈ items) ∧ Opens path [n] := by
  have hopens : Opens path [n] ↔ ¬ World.pathLimit < (Text.encode path).length := Iff.rfl
  rw [filePlaces, hopens]
  split
  next hlong => simp [hlong]
  next hshort =>
    have hinside : [n] ∉ placesInside path items := by
      rw [placesInside_eq]
      intro hmem
      obtain ⟨x, -, hx⟩ := List.mem_flatMap.mp hmem
      obtain ⟨s, hs, heq⟩ := List.mem_map.mp hx
      exact ne_nil_of_mem_filePlaces hs (List.cons.inj heq).2
    simp only [List.mem_append, hinside, or_false, List.mem_map, List.mem_filter, hshort,
      not_false_eq_true, and_true]
    constructor
    · rintro ⟨⟨m, f⟩, ⟨hmem, hfile⟩, heq⟩
      obtain rfl : m = n := (List.cons.inj heq).1
      cases f with
      | file c => exact ⟨c, hmem⟩
      | folder xs => cases hfile
    · rintro ⟨c, hmem⟩
      exact ⟨(n, .file c), ⟨hmem, rfl⟩, rfl⟩

/-- A file of a folder in a folder. If that one can be opened, so can the folder in which it is. -/
theorem cons_cons_mem_filePlaces {m n : Text} {s : Place}
    (hnames : ∀ x ∈ items, Path.isName x.1 = true) :
    m :: n :: s ∈ filePlaces path (.folder items) ↔
      ∃ e, (m, e) ∈ items ∧ n :: s ∈ filePlaces (Path.join path m) e := by
  have hinside : m :: n :: s ∈ placesInside path items ↔
      ∃ e, (m, e) ∈ items ∧ n :: s ∈ filePlaces (Path.join path m) e := by
    rw [placesInside_eq]
    constructor
    · intro hmem
      obtain ⟨⟨k, e⟩, hx, hmap⟩ := List.mem_flatMap.mp hmem
      obtain ⟨t, ht, heq⟩ := List.mem_map.mp hmap
      obtain ⟨rfl, rfl⟩ := List.cons.inj heq
      exact ⟨e, hx, ht⟩
    · rintro ⟨e, hx, ht⟩
      exact List.mem_flatMap.mpr ⟨(m, e), hx, List.mem_map.mpr ⟨n :: s, ht, rfl⟩⟩
  rw [filePlaces]
  split
  next hlong =>
    refine iff_of_false (List.not_mem_nil) ?_
    rintro ⟨e, hx, ht⟩
    have hjoin : World.pathLimit < (Text.encode (Path.join path m)).length :=
      Nat.lt_of_lt_of_le hlong (Path.length_encode_join (hnames _ hx))
    exact opens_of_mem_filePlaces ht hjoin
  next => simp [hinside]

/-- The places that are listed are those of the files that are there and whose folders can be
opened. -/
theorem mem_filePlaces (he : e.isOrdered = true) :
    r ∈ filePlaces path e ↔
      r ≠ [] ∧ (∃ c, e.get? r = some (.file c)) ∧ Opens path r := by
  induction e using Entry.ind generalizing path r with
  | hfile c =>
      cases r with
      | nil => simp [filePlaces]
      | cons n s => simp [filePlaces, Entry.get?, Entry.items]
  | hfolder items ih =>
      obtain ⟨hitems, hsorted⟩ := Entry.allOrdered_iff.mp he
      cases r with
      | nil => exact iff_of_false (fun h => ne_nil_of_mem_filePlaces h rfl) fun h => h.1 rfl
      | cons m s =>
          have hget : (Entry.folder items).get? (m :: s) =
              (items.lookup m).bind (Entry.get? s) := rfl
          simp only [ne_eq, List.cons_ne_nil, not_false_eq_true, true_and, hget,
            Option.bind_eq_some_iff, Entry.lookup_eq_some_iff hsorted]
          cases s with
          | nil => simp [singleton_mem_filePlaces, Entry.get?]
          | cons n s =>
              have hopens : Opens path (m :: n :: s) ↔ Opens (Path.join path m) (n :: s) := Iff.rfl
              rw [cons_cons_mem_filePlaces fun x hx => (hitems x hx).1, hopens]
              constructor
              · rintro ⟨e, hx, ht⟩
                obtain ⟨-, ⟨c, hc⟩, hopen⟩ := (ih _ hx (hitems _ hx).2).mp ht
                exact ⟨⟨c, e, hx, hc⟩, hopen⟩
              · rintro ⟨⟨c, e, hx, hc⟩, hopen⟩
                exact ⟨e, hx, (ih _ hx (hitems _ hx).2).mpr ⟨List.cons_ne_nil n s, ⟨c, hc⟩, hopen⟩⟩

theorem pairwise_filePlaces (he : e.isOrdered = true) :
    (filePlaces path e).Pairwise Entry.Precedes := by
  induction e using Entry.ind generalizing path with
  | hfile c => exact List.Pairwise.nil
  | hfolder items ih =>
      obtain ⟨hitems, hsorted⟩ := Entry.allOrdered_iff.mp he
      rw [filePlaces]
      split
      · exact List.Pairwise.nil
      rw [placesInside_eq, List.pairwise_append, List.pairwise_flatMap]
      refine ⟨?_, ⟨?_, ?_⟩, ?_⟩
      · exact List.pairwise_map.mpr (hsorted.filter _)
      · intro x hx
        exact List.pairwise_map.mpr
          ((ih x hx (hitems x hx).2).imp fun h => Entry.precedes_cons h)
      · refine hsorted.imp fun hlt => ?_
        intro p hp q hq
        obtain ⟨s, hs, rfl⟩ := List.mem_map.mp hp
        obtain ⟨t, ht, rfl⟩ := List.mem_map.mp hq
        exact Entry.precedes_of_lt (ne_nil_of_mem_filePlaces hs) (ne_nil_of_mem_filePlaces ht) hlt
      · intro p hp q hq
        obtain ⟨x, -, rfl⟩ := List.mem_map.mp hp
        obtain ⟨y, -, hy⟩ := List.mem_flatMap.mp hq
        obtain ⟨t, ht, rfl⟩ := List.mem_map.mp hy
        obtain ⟨k, s, rfl⟩ := List.exists_cons_of_ne_nil (ne_nil_of_mem_filePlaces ht)
        exact trivial

/-- The path that is shown for a file. -/
theorem join_shown (he : e.isOrdered = true) (hr : r ∈ filePlaces path e) :
    Path.join (shown path r).1 (shown path r).2 = Path.join path (Path.ofPlace r) := by
  obtain ⟨hne, ⟨c, hc⟩, -⟩ := (mem_filePlaces he).mp hr
  rw [← Path.extend_eq_join hne (Entry.isOrdered_get? he hc).2]
  rw [shown, List.getLast?_eq_some_getLast hne, Option.getD_some, ← Path.extend_concat,
    List.dropLast_concat_getLast]

end Places

/-! ### Searches -/

/-- The files below a folder whose names satisfy a condition: each that is in a folder that can be
opened, once, in the order of the search. -/
structure Lists (top : Text) (e : Entry) (fits : Text → Prop) (found : List Place) : Prop where
  mem_iff : ∀ r, r ∈ found ↔
    (∃ c, e.get? r = some (.file c)) ∧ fits (r.getLast?.getD []) ∧ Opens top r
  nodup : found.Nodup
  inOrder : found.Pairwise Entry.Precedes

section Search

variable {w : World} {top wildcard : Text} {items : List (Text × Entry)} {fits : Text → Prop}

theorem each_fitting (wildcard : Text) (files : List (Text × Text)) :
    Yield.each (fitting (.text wildcard)) files =
      ⟨(files.filter fun f => Wild.nameMatches wildcard f.2).map
        fun f => .text (Path.join f.1 f.2 ++ ['\n']), none⟩ := by
  rw [Yield.each_eq_flatMap]
  · congr 1
    induction files with
    | nil => rfl
    | cons f files ih =>
        rw [List.flatMap_cons, ih, fitting]
        cases hf : Wild.nameMatches wildcard f.2 <;> simp [hf]
  · intro f _
    rw [fitting]
    split <;> rfl

/-- The files that a wildcard describes, by their places. -/
def fittingPlaces (wildcard top : Text) (e : Entry) : List Place :=
  (filePlaces top e).filter fun r => Wild.nameMatches wildcard (r.getLast?.getD [])

theorem lists_fittingPlaces (hordered : (Entry.folder items).isOrdered = true)
    (hfits : ∀ n, Wild.nameMatches wildcard n = true ↔ fits n) :
    Lists top (.folder items) fits (fittingPlaces wildcard top (.folder items)) where
  mem_iff := by
    intro r
    have hne : (∃ c, (Entry.folder items).get? r = some (.file c)) → r ≠ [] := by
      rintro ⟨c, hc⟩ rfl
      cases hc
    rw [fittingPlaces, List.mem_filter, mem_filePlaces hordered, hfits]
    exact ⟨fun ⟨⟨_, hfile, hopens⟩, hname⟩ => ⟨hfile, hname, hopens⟩,
      fun ⟨hfile, hname, hopens⟩ => ⟨⟨hne hfile, hfile, hopens⟩, hname⟩⟩
  nodup := by
    refine ((pairwise_filePlaces hordered).imp ?_).filter _
    rintro p _ h rfl
    exact Entry.precedes_irrefl p h
  inOrder := (pairwise_filePlaces hordered).filter _

/-- What a search gives out for the files below an entry. -/
theorem items_each_fitting {e : Entry} (hordered : e.isOrdered = true) :
    Yield.each (fitting (.text wildcard)) (filesBelow top e) =
      ⟨(fittingPlaces wildcard top e).map
        fun r => .text (Path.join top (Path.ofPlace r) ++ ['\n']), none⟩ := by
  rw [each_fitting, filesBelow_eq, List.filter_map, List.map_map]
  congr 1
  refine List.map_congr_left fun r hr => ?_
  exact congrArg (fun t => Value.text (t ++ ['\n']))
    (join_shown hordered (List.mem_of_mem_filter hr))

/-- A search with a name to look for, or for all names. -/
theorem running_find (hzero : Path.hasZero top = false) {e : Entry} (he : w.entryAt top = .ok e)
    (hname : top ≠ "-name".toList) {args : List Value}
    (hargs : args = [.text top, .text "-name".toList, .text wildcard] ∨
      args = [.text top] ∧ wildcard = ['*']) :
    (Application.find.exec args w).running =
      ((Yield.each (fitting (.text wildcard)) (filesBelow top e)).items, w,
        (Yield.each (fitting (.text wildcard)) (filesBelow top e)).fault) := by
  have hflag : (Value.text top).isText "-name".toList = false := decide_eq_false hname
  have hself : (Value.text "-name".toList).isText "-name".toList = true := rfl
  have hunder : filesUnder w top = .ok (filesBelow top e) := by
    rw [filesUnder, hzero, he]
    rfl
  rw [exec]
  rcases hargs with rfl | ⟨rfl, rfl⟩
  · simp only [runFind, hflag, hself, Bool.false_eq_true, if_false, List.any_cons,
      Bool.true_or, Bool.or_true, if_true, List.getLast?_cons_cons, List.getLast?_singleton,
      Option.getD_some, hunder]
    rfl
  · simp only [runFind, hflag, Bool.false_eq_true, if_false, List.any_cons, List.any_nil,
      Bool.or_false, hunder]
    rfl

end Search

end Application

namespace World

theorem exists_folder_of_hasFolder {w : World} {path : Text} (h : w.hasFolder path = true) :
    Path.hasZero path = false ∧ ∃ items, w.entryAt path = .ok (.folder items) := by
  rw [hasFolder, Bool.and_eq_true, Bool.not_eq_true'] at h
  refine ⟨h.1, ?_⟩
  cases he : w.entryAt path with
  | error e => simp [he] at h
  | ok e =>
      cases e with
      | file c => simp [he, Entry.isFolder] at h
      | folder items => exact ⟨items, rfl⟩

end World

open Application

/-- A search below a folder gives out a line for every file below it whose name fits the pattern,
and without a pattern for every file below it: the path of the folder with the names that lead to
the file behind it. Every file is listed once, the files of a folder before those of the folders in
it, both by name. A folder whose path is too long is passed over, and the word that comes before a
pattern is no path. -/
theorem find_lists_files {w : World} (hw : w.root.isOrdered = true) {top : Text}
    (htop : w.hasFolder top = true) (hname : top ≠ "-name".toList) :
    ∃ items, w.entryAt top = .ok (.folder items) ∧
      (∀ pattern : Text, '[' ∉ pattern → ∃ found,
        Lists top (.folder items) (Wild.Fits pattern) found ∧
        (Application.find.exec [.text top, .text "-name".toList, .text pattern] w).running =
          (found.map fun r => .text (Path.join top (Path.ofPlace r) ++ ['\n']), w, none)) ∧
      ∃ found, Lists top (.folder items) (fun _ => True) found ∧
        (Application.find.exec [.text top] w).running =
          (found.map fun r => .text (Path.join top (Path.ofPlace r) ++ ['\n']), w, none) := by
  obtain ⟨hzero, items, he⟩ := World.exists_folder_of_hasFolder htop
  have hordered := World.isOrdered_entryAt hw he
  refine ⟨items, he, ?_, ?_⟩
  · intro pattern hpattern
    refine ⟨_, lists_fittingPlaces hordered fun n => Wild.nameMatches_iff_fits hpattern, ?_⟩
    rw [running_find hzero he hname (Or.inl rfl), items_each_fitting hordered]
  · refine ⟨_, lists_fittingPlaces hordered fun n => iff_of_true (Wild.nameMatches_star_alone n)
      trivial, ?_⟩
    rw [running_find hzero he hname (Or.inr ⟨rfl, rfl⟩), items_each_fitting hordered]

/-- Files in folders, one in another. -/
def World.nested : World :=
  { World.odd with root := .folder [
      ("b.c".toList, .file (.text [])),
      ("d".toList, .folder [
        ("a.c".toList, .file (.text [])),
        ("e".toList, .folder [("c.c".toList, .file (.text []))]),
        ("x".toList, .file (.text []))])] }

/-- The file of the folder itself comes first, although its name is not the first one. -/
theorem find_lists_files_nested :
    World.nested.root.isOrdered = true ∧ World.nested.hasFolder "d/..".toList = true ∧
      (Application.find.exec [.text "d/..".toList, .text "-name".toList, .text "*.?".toList]
        World.nested).added =
        ["d/../b.c\n", "d/../d/a.c\n", "d/../d/e/c.c\n"].map (.text ·.toList) ∧
      ∃ items, World.nested.entryAt "d/..".toList = .ok (.folder items) ∧
        ∃ found, Lists "d/..".toList (.folder items) (Wild.Fits "*.?".toList) found ∧
          (Application.find.exec [.text "d/..".toList, .text "-name".toList, .text "*.?".toList]
            World.nested).running =
            (found.map fun r => .text (Path.join "d/..".toList (Path.ofPlace r) ++ ['\n']),
              World.nested, none) := by
  have hordered : World.nested.root.isOrdered = true := by decide +kernel
  have hfolder : World.nested.hasFolder "d/..".toList = true := by decide +kernel
  obtain ⟨items, he, hfound, -⟩ := find_lists_files hordered hfolder (by decide)
  exact ⟨hordered, hfolder, by decide +kernel, items, he, hfound "*.?".toList (by decide)⟩

/-- A name that is nearly as long as a name can be. -/
def Path.longName : Text := List.replicate 63 (Char.ofNat 128512)

/-- A path that is as long as a path can be: into a folder and out of it again. -/
def Path.longest : Text :=
  (List.replicate 15 (longName ++ "/../".toList)).flatten ++ longName ++ "/..".toList

/-- A file in a folder with the name of the flag, and a folder with a long name. -/
def World.flagged : World :=
  { World.odd with root := .folder [
      ("-name".toList, .folder [("a".toList, .file (.text []))]),
      (Path.longName, .folder [])] }

/-- The folder with the name of the flag is no path to search, and below a path that is as long as a
path can be no folder is searched but the one to which it leads. -/
theorem find_misses_files :
    World.flagged.root.isOrdered = true ∧ World.flagged.hasFolder "-name".toList = true ∧
      (Application.find.exec [.text "-name".toList, .text "-name".toList, .text ['a']]
        World.flagged).added = [.text "./-name/a\n".toList] ∧
      "./-name/a\n".toList ≠ Path.join "-name".toList (Path.ofPlace [['a']]) ++ ['\n'] ∧
      World.flagged.locate Path.longest = .ok [] ∧
      World.flagged.root.get? ["-name".toList, ['a']] = some (.file (.text [])) ∧
      (Application.find.exec [.text Path.longest, .text "-name".toList, .text ['a']]
        World.flagged).added = [] := by
  exact ⟨by decide +kernel, by decide +kernel, by decide +kernel, by decide, by decide +kernel, rfl,
    by decide +kernel⟩

end CommandShell
