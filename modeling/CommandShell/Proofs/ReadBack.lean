import CommandShell.Proofs.RedirectedOutput

/-! # Lines that are read back

Items that are written to a file are read back as its lines. Behind an older content they are read
back behind its lines, unless the content does not end with a line break: then its last line and the
first item make one line. No other file is touched. -/

namespace CommandShell

/-! ### Lines of texts put together -/

namespace Text

variable {s t : Text}

theorem unifyBreaks_of_notMem (h : '\r' ∉ t) : unifyBreaks t = t := by
  fun_induction unifyBreaks t with
  | case1 cs ih => exact absurd List.mem_cons_self h
  | case2 cs hcs ih => exact absurd List.mem_cons_self h
  | case3 c cs hbreak hreturn ih => rw [ih fun hmem => h (List.mem_cons_of_mem c hmem)]
  | case4 => rfl

theorem lines_ne_nil (h : t ≠ []) : lines t ≠ [] := by
  intro hnil
  apply h
  rw [← flatten_lines t, hnil, List.flatten_nil]

theorem lines_cons_break (t : Text) : lines ('\n' :: t) = ['\n'] :: lines t := by
  rw [lines, if_pos rfl]

/-- A character that is no line break joins the first line. -/
theorem lines_cons {c : Char} (hc : c ≠ '\n') {l : Text} {ls : List Text} (h : lines t = l :: ls) :
    lines (c :: t) = (c :: l) :: ls := by
  rw [lines, if_neg hc, h]

theorem lines_singleton {c : Char} : lines [c] = [[c]] := by
  by_cases hc : c = '\n' <;> simp [lines, hc]

theorem lines_append_of_ended (h : s.getLast? = some '\n') (t : Text) :
    lines (s ++ t) = lines s ++ lines t := by
  induction s with
  | nil => cases h
  | cons c s ih =>
      cases s with
      | nil =>
          obtain rfl : c = '\n' := by simpa using h
          rw [List.singleton_append, lines_cons_break, lines_singleton, List.singleton_append]
      | cons d s =>
          have hrest := ih (by rwa [List.getLast?_cons_cons] at h)
          obtain ⟨l, ls, hls⟩ := List.exists_cons_of_ne_nil (lines_ne_nil (List.cons_ne_nil d s))
          rw [List.cons_append]
          by_cases hc : c = '\n'
          · rw [hc, lines_cons_break, lines_cons_break, hrest, List.cons_append]
          · rw [hls] at hrest
            rw [lines_cons hc hls]
            exact lines_cons hc hrest

/-- Where the first text does not end with a line break, its last line goes on. -/
theorem length_lines_append (hs : s ≠ []) (h : s.getLast? ≠ some '\n') (ht : t ≠ []) :
    (lines (s ++ t)).length + 1 = (lines s).length + (lines t).length := by
  induction s with
  | nil => exact absurd rfl hs
  | cons c s ih =>
      cases s with
      | nil =>
          have hc : c ≠ '\n' := by simpa using h
          obtain ⟨l, ls, hls⟩ := List.exists_cons_of_ne_nil (lines_ne_nil ht)
          rw [List.singleton_append, lines_cons hc hls, lines_singleton, hls]
          simp only [List.length_cons, List.length_nil]
          omega
      | cons d s =>
          have hrest := ih (List.cons_ne_nil d s) (by rwa [List.getLast?_cons_cons] at h)
          have hne : d :: s ++ t ≠ [] := List.cons_ne_nil _ _
          obtain ⟨l, ls, hls⟩ := List.exists_cons_of_ne_nil (lines_ne_nil (List.cons_ne_nil d s))
          obtain ⟨m, ms, hms⟩ := List.exists_cons_of_ne_nil (lines_ne_nil hne)
          rw [List.cons_append]
          by_cases hc : c = '\n'
          · rw [hc, lines_cons_break, lines_cons_break, List.length_cons, List.length_cons]
            omega
          · rw [hls, hms] at hrest
            rw [lines_cons hc hms, lines_cons hc hls]
            simpa only [List.length_cons] using hrest

/-- The lines of two texts are those of the one and then those of the other, unless a line goes on
from the one to the other. -/
theorem lines_append_eq_iff :
    lines (s ++ t) = lines s ++ lines t ↔ s = [] ∨ s.getLast? = some '\n' ∨ t = [] := by
  constructor
  · intro heq
    by_contra hnone
    obtain ⟨hs, hrest⟩ := not_or.mp hnone
    obtain ⟨hended, ht⟩ := not_or.mp hrest
    have hlength := length_lines_append hs hended ht
    rw [heq, List.length_append] at hlength
    omega
  · rintro (rfl | hended | rfl)
    · rfl
    · exact lines_append_of_ended hended t
    · rw [List.append_nil, lines, List.append_nil]

end Text

namespace Command

/-- Every item without a line break in it is a line. -/
theorem lines_asLines {items : List Text} (h : ∀ t ∈ items, '\n' ∉ t) :
    Text.lines (asLines items) = items.map (· ++ ['\n']) := by
  have hline : ∀ {t : Text}, '\n' ∉ t → Text.lines (t ++ ['\n']) = [t ++ ['\n']] := by
    intro t ht
    induction t with
    | nil => rfl
    | cons c t ih =>
        obtain ⟨hc, hrest⟩ := not_or.mp (mt List.mem_cons.mpr ht)
        exact Text.lines_cons (Ne.symm hc) (ih hrest)
  induction items with
  | nil => rfl
  | cons t items ih =>
      obtain ⟨ht, hitems⟩ := List.forall_mem_cons.mp h
      rw [asLines, List.flatMap_cons, Text.lines_append_of_ended List.getLast?_concat, hline ht,
        ← asLines, ih hitems, List.map_cons, List.singleton_append]

theorem asLines_eq_nil_iff {items : List Text} : asLines items = [] ↔ items = [] := by
  cases items with
  | nil => exact iff_of_true rfl rfl
  | cons t items => simp [asLines]

theorem notMem_asLines {items : List Text} {c : Char} (hc : c ≠ '\n') (h : ∀ t ∈ items, c ∉ t) :
    c ∉ asLines items := by
  intro hmem
  obtain ⟨t, ht, hct⟩ := List.mem_flatMap.mp hmem
  rcases List.mem_append.mp hct with hct | hct
  · exact h t ht hct
  · exact hc (List.mem_singleton.mp hct)

end Command

/-! ### What is elsewhere -/

/-- What is seen of an entry at its own place: the content of a file, or that it is a folder. -/
def Entry.held : Entry → Option Content
  | .file c => some c
  | .folder _ => none

namespace Entry

theorem get?_file_cons (c : Content) (n : Text) (ns : Place) : (file c).get? (n :: ns) = none := rfl

/-- A file that is put into a folder where no folder is leaves all other places as they were. -/
theorem held_get?_put {root : Entry} {p q : Place} {n : Text} {items : List (Text × Entry)}
    (hp : root.get? p = some (.folder items))
    (hfree : ∀ xs, root.get? (p ++ [n]) ≠ some (.folder xs)) (c : Content) (hq : q ≠ p ++ [n]) :
    ((put (.file c) (p ++ [n]) root).get? q).map held = (root.get? q).map held := by
  induction p generalizing root q with
  | nil =>
      obtain rfl : root = .folder items := Option.some.inj hp
      rw [List.nil_append, put, put]
      cases q with
      | nil => rfl
      | cons m q =>
          rw [get?, get?, Entry.items, Entry.items]
          by_cases hmn : m = n
          · subst hmn
            have hbelow : q ≠ [] := fun hnil => hq (by rw [hnil]; rfl)
            obtain ⟨k, ks, rfl⟩ := List.exists_cons_of_ne_nil hbelow
            rw [lookup_insertItem_self, Option.bind_some, get?_file_cons]
            cases hl : items.lookup m with
            | none => rfl
            | some e =>
                cases e with
                | file d => rfl
                | folder xs => exact absurd (by simp [get?, Entry.items, hl]) (hfree xs)
          · rw [lookup_insertItem_of_ne hmn]
  | cons k p ih =>
      rw [get?] at hp
      obtain ⟨child, hchild, hfolder⟩ := Option.bind_eq_some_iff.mp hp
      have hroot : root = .folder root.items := by
        cases root with
        | file d => cases hchild
        | folder xs => rfl
      rw [List.cons_append, put]
      cases q with
      | nil =>
          rw [hroot]
          rfl
      | cons m q =>
          rw [get?, get?, Entry.items]
          by_cases hmk : m = k
          · subst hmk
            rw [lookup_insertItem_self, hchild, Option.bind_some, Option.bind_some,
              Option.getD_some]
            refine ih hfolder (fun xs hxs => hfree xs ?_) fun heq => hq (by rw [heq]; rfl)
            rw [List.cons_append, get?, hchild]
            exact hxs
          · rw [lookup_insertItem_of_ne hmk]

end Entry

namespace World

/-- Nothing is different but the file to which a path leads: at every other place there is a file
with the same content, a folder, or nothing, as before. -/
def SameBut (path : Text) (w w' : World) : Prop :=
  ∃ place, w'.locate path = .ok place ∧ w' = { w with root := w'.root } ∧
    ∀ q, q ≠ place → (w'.root.get? q).map Entry.held = (w.root.get? q).map Entry.held

theorem sameBut_writeText {w w' : World} {path t : Text} {append : Bool}
    (h : w.writeText path append t = .ok w') : w.SameBut path w' := by
  obtain ⟨p, n, c, hleads, hfree, rfl⟩ := exists_of_writeText h
  obtain ⟨items, hitems⟩ := hleads.isFolder
  refine ⟨p ++ [n], ?_, rfl, fun q => Entry.held_get?_put hitems hfree c⟩
  rw [(hleads.setContent hfree c).locate_eq, setContent, Entry.get?_put_self]
  rfl

/-- The text of a file; of a file that is missing, nothing. -/
def Holds (w : World) (path t : Text) : Prop :=
  w.entryAt path = .ok (.file (.text t)) ∨ w.entryAt path = .error .notFound ∧ t = []

theorem Holds.extended_eq {w : World} {path old : Text} (h : w.Holds path old) (t : Text) :
    extended (w.entryAt path) t = .text (old ++ t) := by
  rcases h with hfile | ⟨hmissing, rfl⟩
  · rw [hfile]
    rfl
  · rw [hmissing]
    rfl

theorem openFile_of_text {w : World} {path t : Text} (hzero : Path.hasZero path = false)
    (hentry : w.entryAt path = .ok (.file (.text t))) (ht : '\r' ∉ t) :
    w.openFile (.text path) = .ok ((Text.lines t).map .text) := by
  rw [openFile, readLines, hzero, hentry]
  simp only [Bool.false_eq_true, if_false, Content.lines, Text.unifyBreaks_of_notMem ht, Except.map]

end World

namespace Command

/-- Where the file comes to hold a text, its lines are read back, and all else is as it was. -/
theorem exists_writeOutput {w : World} {f : Text} (h : w.CanWrite f) {append : Bool}
    {items : List Text} {t : Text} (ht : '\r' ∉ t)
    (hcontent : (if append then World.extended (w.entryAt f) (asLines items)
      else .text (asLines items)) = .text t) :
    ∃ w', writeOutput w (.text f) append (items.map .text) = ([], w', none) ∧
      w'.openFile (.text f) = .ok ((Text.lines t).map .text) ∧ w.SameBut f w' := by
  obtain ⟨w', hwrite, hentry⟩ := World.exists_writeText h append (asLines items)
  rw [hcontent] at hentry
  exact ⟨w', writeOutput_ok hwrite, World.openFile_of_text h.1 hentry ht,
    World.sameBut_writeText hwrite⟩

/-- Items that are written over a file are read back as its lines. Items that are written behind
what a file holds are read back with it, as the lines of one text: as its lines and then the items,
just if it holds nothing, ends with a line break, or there are no items. The output is empty
afterwards and every other file is as it was. -/
theorem written_lines_read_back {w : World} {f : Text} (h : w.CanWrite f) {items : List Text}
    (hitems : ∀ t ∈ items, '\r' ∉ t ∧ '\n' ∉ t) :
    (∃ w', writeOutput w (.text f) false (items.map .text) = ([], w', none) ∧
      w'.openFile (.text f) = .ok ((items.map (· ++ ['\n'])).map .text) ∧ w.SameBut f w') ∧
    ∀ old, w.Holds f old → '\r' ∉ old →
      (∃ w', writeOutput w (.text f) true (items.map .text) = ([], w', none) ∧
        w'.openFile (.text f) = .ok ((Text.lines (old ++ asLines items)).map .text) ∧
        w.SameBut f w') ∧
      (Text.lines (old ++ asLines items) = Text.lines old ++ items.map (· ++ ['\n']) ↔
        old = [] ∨ old.getLast? = some '\n' ∨ items = []) := by
  have hlines := lines_asLines fun t ht => (hitems t ht).2
  have hplain : '\r' ∉ asLines items := notMem_asLines (by decide) fun t ht => (hitems t ht).1
  constructor
  · rw [← hlines]
    exact exists_writeOutput h hplain rfl
  · intro old hold hreturn
    have hboth : '\r' ∉ old ++ asLines items := by simp [hreturn, hplain]
    refine ⟨exists_writeOutput h hboth (hold.extended_eq _), ?_⟩
    rw [← hlines, Text.lines_append_eq_iff, asLines_eq_nil_iff]

end Command

/-- A file whose only line has no end, and a folder beside it. -/
def World.unended : World :=
  { World.odd with root := .folder [
      ("d".toList, .folder [("g".toList, .file (.text "x\n".toList))]),
      ("f".toList, .file (.text ['a']))] }

/-- The first item goes on with the line that has no end; where no file is, the items are all its
lines. -/
theorem Command.written_lines_read_back_unended :
    World.unended.CanWrite "f".toList ∧ World.unended.Holds "f".toList ['a'] ∧
      (∃ w', Command.writeOutput World.unended (.text "f".toList) true [.text ['b'], .text []] =
          ([], w', none) ∧
        w'.openFile (.text "f".toList) = .ok [.text "ab\n".toList, .text ['\n']] ∧
        World.unended.SameBut "f".toList w') ∧
      ∃ w', Command.writeOutput World.unended (.text "d/h".toList) false [.text ['b'], .text []] =
          ([], w', none) ∧
        w'.openFile (.text "d/h".toList) = .ok [.text "b\n".toList, .text ['\n']] ∧
        World.unended.SameBut "d/h".toList w' := by
  have hitems : ∀ t ∈ [['b'], []], '\r' ∉ t ∧ '\n' ∉ t := by simp
  have hfile : World.unended.CanWrite "f".toList := ⟨by decide, _, rfl⟩
  have hnew : World.unended.CanWrite "d/h".toList := ⟨by decide, _, rfl⟩
  have hholds : World.unended.Holds "f".toList ['a'] := Or.inl rfl
  exact ⟨hfile, hholds, ((Command.written_lines_read_back hfile hitems).2 ['a'] hholds (by simp)).1,
    (Command.written_lines_read_back hnew hitems).1⟩

end CommandShell
