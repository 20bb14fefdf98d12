import CommandShell.Proofs.OrderedTrees

/-! # Files that are removed

Names are gone through in turn, and the file to which each one leads is removed. A name that leads
to no file ends this, also if the file was there and has been removed under a name before. What is
removed by then stays so, and nothing else is touched. -/

namespace CommandShell

/-! ### Entries -/

namespace Entry

variable {e e' root : Entry} {p q : Place} {places : List Place}

/-- What is above something is a folder. -/
theorem exists_folder_dropLast {items : List (Text × Entry)}
    (h : root.get? p = some (.folder items)) :
    ∃ above, root.get? p.dropLast = some (.folder above) := by
  rcases List.eq_nil_or_concat p with rfl | ⟨p, n, rfl⟩
  · exact ⟨items, h⟩
  · rw [List.concat_eq_append, get?_concat] at h
    obtain ⟨f, hf, hl⟩ := Option.bind_eq_some_iff.mp h
    rw [List.concat_eq_append, List.dropLast_concat, hf]
    cases f with
    | file c => cases hl
    | folder above => exact ⟨above, rfl⟩

/-- Files at some places are gone, and every other place is as it was. -/
structure Pruned (places : List Place) (e e' : Entry) : Prop where
  files : ∀ p ∈ places, ∃ c, e.get? p = some (.file c)
  held : ∀ q, (e'.get? q).map held = if q ∈ places then none else (e.get? q).map held

namespace Pruned

theorem refl (e : Entry) : Pruned [] e e := ⟨by simp, by simp⟩

theorem get?_of_mem (h : Pruned places e e') (hq : q ∈ places) : e'.get? q = none :=
  Option.map_eq_none_iff.mp ((h.held q).trans (if_pos hq))

theorem map_held (h : Pruned places e e') (hq : q ∉ places) :
    (e'.get? q).map Entry.held = (e.get? q).map Entry.held := (h.held q).trans (if_neg hq)

theorem notMem_of_folder (h : Pruned places e e') {items : List (Text × Entry)}
    (hq : e.get? q = some (.folder items)) : q ∉ places := fun hmem => by
  obtain ⟨c, hc⟩ := h.files q hmem
  rw [hq] at hc
  cases hc

end Pruned

theorem held_eq_some_iff {c : Content} : e.held = some c ↔ e = .file c := by
  cases e <;> simp [held]

theorem Pruned.folder_iff (h : Pruned places e e') :
    (∃ items, e'.get? q = some (.folder items)) ↔ ∃ items, e.get? q = some (.folder items) := by
  have hfolder : ∀ f : Entry, (∃ items, f.get? q = some (.folder items)) ↔
      (f.get? q).map Entry.held = some none := by
    intro f
    rw [Option.map_eq_some_iff]
    simp only [held_eq_none_iff]
    exact ⟨fun ⟨items, hitems⟩ => ⟨_, hitems, items, rfl⟩,
      fun ⟨_, hf, items, heq⟩ => ⟨items, heq ▸ hf⟩⟩
  constructor
  · intro hq
    rw [hfolder] at hq ⊢
    rw [h.held] at hq
    split at hq
    · cases hq
    · exact hq
  · rintro ⟨items, hq⟩
    rw [hfolder, h.map_held (h.notMem_of_folder hq), hq]
    rfl

theorem Pruned.file_iff (h : Pruned places e e') {c : Content} :
    e'.get? q = some (.file c) ↔ e.get? q = some (.file c) ∧ q ∉ places := by
  have hfile : ∀ f : Entry, f.get? q = some (.file c) ↔
      (f.get? q).map Entry.held = some (some c) := by
    intro f
    rw [Option.map_eq_some_iff]
    simp only [held_eq_some_iff]
    exact ⟨fun hf => ⟨_, hf, rfl⟩, fun ⟨_, hf, heq⟩ => heq ▸ hf⟩
  rw [hfile, hfile, h.held]
  by_cases hq : q ∈ places <;> simp [hq]

/-- One file more is removed. -/
theorem Pruned.erase (h : Pruned places e e') {c : Content} (hne : p ≠ [])
    (hp : e'.get? p = some (.file c)) : Pruned (places ++ [p]) e (erase p e') where
  files := by
    refine List.forall_mem_append.mpr ⟨h.files, List.forall_mem_singleton.mpr ⟨c, ?_⟩⟩
    exact (h.file_iff.mp hp).1
  held q := by
    rw [held_get?_erase hne hp, h.held]
    by_cases hq : q = p <;> simp [hq]

end Entry

/-! ### Paths -/

namespace World

variable {w w' : World} {p q : Place} {t : Text} {names : List Text}

/-- Nothing leads on from a file. -/
theorem eq_of_follow_file {root : Entry} {place : Place} {ns : List Text} {c : Content}
    (hfile : root.get? place = some (.file c)) (h : follow root place ns = .ok q) : q = place := by
  cases ns with
  | nil => exact (Except.ok.inj h).symm
  | cons n ns =>
      obtain ⟨inside, hinside⟩ := exists_folder_of_follow h
      rw [hfile] at hinside
      cases hinside

/-- A path leads to the same place when files are gone, unless it leads to one of these. -/
theorem follow_pruned {root root' : Entry} {places : List Place} {place : Place} {ns : List Text}
    (h : Entry.Pruned places root root') (hstart : ns ≠ [] ∨ place ∉ places) :
    follow root' place ns = .ok q ↔ follow root place ns = .ok q ∧ q ∉ places := by
  induction ns generalizing place with
  | nil =>
      have hplace := hstart.resolve_left fun hne => hne rfl
      rw [follow, follow, Except.ok.injEq]
      exact ⟨fun heq => ⟨heq, heq ▸ hplace⟩, And.left⟩
  | cons n ns ih =>
      by_cases hfolder : ∃ items, root.get? place = some (.folder items)
      · obtain ⟨items, hitems⟩ := hfolder
        obtain ⟨items', hitems'⟩ := h.folder_iff.mpr ⟨items, hitems⟩
        rw [follow_cons hitems, follow_cons hitems']
        split
        · exact ih (Or.inr (h.notMem_of_folder hitems))
        split
        · split
          · simp
          · obtain ⟨above, habove⟩ := Entry.exists_folder_dropLast hitems
            exact ih (Or.inr (h.notMem_of_folder habove))
        split
        · simp
        -- A name in the folder: it is gone, or it is there just if it was.
        have hlookup : root.get? (place ++ [n]) = items.lookup n := by
          rw [Entry.get?_concat, hitems, Option.bind_some, Entry.items]
        have hlookup' : root'.get? (place ++ [n]) = items'.lookup n := by
          rw [Entry.get?_concat, hitems', Option.bind_some, Entry.items]
        by_cases hgone : place ++ [n] ∈ places
        · obtain ⟨c, hfile⟩ := h.files _ hgone
          rw [← hlookup', h.get?_of_mem hgone, ← hlookup, hfile]
          refine iff_of_false (fun hq => by cases hq) ?_
          rintro ⟨hq, hnot⟩
          exact hnot (eq_of_follow_file hfile hq ▸ hgone)
        · have hheld := h.map_held hgone
          rw [hlookup, hlookup'] at hheld
          cases hl : items.lookup n with
          | none =>
              rw [hl, Option.map_none, Option.map_eq_none_iff] at hheld
              simp [hheld]
          | some f =>
              rw [hl] at hheld
              obtain ⟨f', hf', -⟩ := Option.map_eq_some_iff.mp hheld
              rw [hf']
              exact ih (Or.inr hgone)
      · refine iff_of_false (fun hq => ?_) fun hq => ?_
        · exact hfolder (h.folder_iff.mp (exists_folder_of_follow hq))
        · exact hfolder (exists_folder_of_follow hq.1)

theorem locate_eq_ok_iff {path : Text} : w.locate path = .ok p ↔
    (Text.encode path).length ≤ pathLimit ∧ (path.isEmpty || Path.isAbsolute path) = false ∧
      follow w.root w.here (Path.names path) = .ok p := by
  rw [locate, followPath]
  by_cases hlong : pathLimit < (Text.encode path).length
  · simp [hlong, Nat.not_le.mpr hlong]
  · rw [if_neg hlong]
    cases hrelative : path.isEmpty || Path.isAbsolute path
    · simp [Nat.not_lt.mp hlong]
    · simp

theorem hasFile_iff {path : Text} : w.hasFile path = true ↔
    Path.hasZero path = false ∧ ∃ p, w.locate path = .ok p ∧
      ∃ c, w.root.get? p = some (.file c) := by
  constructor
  · intro h
    have hzero : Path.hasZero path = false := by
      rw [hasFile, Bool.and_eq_true, Bool.not_eq_true'] at h
      exact h.1
    cases hl : w.locate path with
    | error e => simp [hasFile, entryAt, hl] at h
    | ok p => exact ⟨hzero, p, rfl, exists_file_of_hasFile h hl⟩
  · rintro ⟨hzero, p, hl, c, hc⟩
    simp [hasFile, entryAt, hzero, hl, hc, Entry.isFile]

/-- The place of the file to which a name leads, blanks around it apart. -/
def filePlace? (w : World) (t : Text) : Option Place :=
  if w.hasFile (Text.strip t) then (w.locate (Text.strip t)).toOption else none

theorem filePlace?_eq_some_iff : w.filePlace? t = some p ↔
    Path.hasZero (Text.strip t) = false ∧ w.locate (Text.strip t) = .ok p ∧
      ∃ c, w.root.get? p = some (.file c) := by
  rw [filePlace?]
  split
  next h =>
    obtain ⟨hzero, q, hl, hfile⟩ := hasFile_iff.mp h
    rw [hl]
    simp only [hzero, Except.toOption, Option.some.injEq, Except.ok.injEq, true_and]
    exact ⟨fun heq => ⟨heq, heq ▸ hfile⟩, And.left⟩
  next h =>
    refine iff_of_false (by simp) ?_
    rintro ⟨hzero, hl, hfile⟩
    exact h (hasFile_iff.mpr ⟨hzero, p, hl, hfile⟩)

theorem hasFile_strip_iff : w.hasFile (Text.strip t) = true ↔ ∃ p, w.filePlace? t = some p := by
  simp only [hasFile_iff, filePlace?_eq_some_iff, exists_and_left]

/-- A file is never the top. -/
theorem ne_nil_of_filePlace? (h : w.filePlace? t = some p) : p ≠ [] := by
  obtain ⟨-, hl, c, hc⟩ := filePlace?_eq_some_iff.mp h
  obtain ⟨n, ns, hnames⟩ :=
    List.exists_cons_of_ne_nil (Text.splitOnMark_ne_nil '/' (Text.strip t))
  have hfollow := (locate_eq_ok_iff.mp hl).2.2
  rw [Path.names, hnames] at hfollow
  obtain ⟨items, hitems⟩ := exists_folder_of_follow hfollow
  rintro rfl
  obtain hroot : w.root = .file c := Option.some.inj hc
  rw [hroot] at hitems
  cases hhere : w.here <;> simp [hhere, Entry.get?, Entry.items] at hitems

/-! ### The files that names lead to -/

/-- The world in which the files to which some names lead are gone, and which is the same in all
else: at every other place there is a file with the same content, a folder, or nothing, as
before. -/
def Without (w : World) (names : List Text) (w' : World) : Prop :=
  w' = { w with root := w'.root } ∧
    Entry.Pruned (names.filterMap w.filePlace?) w.root w'.root

/-- A name leads to a file also when the files to which some names lead are gone. -/
def Remains (w : World) (names : List Text) (t : Text) : Prop :=
  ∃ w', w.Without names w' ∧ w'.hasFile (Text.strip t) = true

theorem without_nil (w : World) : w.Without [] w := ⟨rfl, .refl w.root⟩

theorem Without.filePlace?_eq_some_iff (h : w.Without names w') :
    w'.filePlace? t = some p ↔
      w.filePlace? t = some p ∧ p ∉ names.filterMap w.filePlace? := by
  have hhere : w'.here = w.here := by rw [h.1]
  have hnames : Path.names (Text.strip t) ≠ [] := Text.splitOnMark_ne_nil '/' (Text.strip t)
  simp only [World.filePlace?_eq_some_iff, locate_eq_ok_iff, hhere,
    follow_pruned h.2 (Or.inl hnames), h.2.file_iff, exists_and_right]
  tauto

/-- Which name leads to a file yet does not depend on how the world is written down. -/
theorem Without.remains_iff (h : w.Without names w') :
    w.Remains names t ↔ w'.hasFile (Text.strip t) = true := by
  refine ⟨?_, fun hfile => ⟨w', h, hfile⟩⟩
  rintro ⟨w'', hw'', hfile⟩
  rw [hasFile_strip_iff] at hfile ⊢
  obtain ⟨p, hp⟩ := hfile
  exact ⟨p, h.filePlace?_eq_some_iff.mpr (hw''.filePlace?_eq_some_iff.mp hp)⟩

end World

/-! ### Removing -/

namespace Application

variable {w w' : World} {t : Text} {names : List Text}

/-- A name that leads to a file: just this file is removed. -/
theorem exists_removeOne (h : w.Without names w') (ht : w.Remains names t) :
    ∃ w'', removeOne (.text t) w' = (w'', none) ∧ w.Without (names ++ [t]) w'' := by
  have hfile := h.remains_iff.mp ht
  obtain ⟨p, hp⟩ := World.hasFile_strip_iff.mp hfile
  obtain ⟨-, hl, c, hc⟩ := World.filePlace?_eq_some_iff.mp hp
  have hold := (h.filePlace?_eq_some_iff.mp hp).1
  have hroot : w' = { w with root := w'.root } := h.1
  refine ⟨w'.removeFile p, ?_, ?_, ?_⟩
  · simp only [removeOne, hfile, hl, if_true]
  · rw [hroot]
    rfl
  · rw [List.filterMap_append, List.filterMap_cons, hold, List.filterMap_nil]
    exact h.2.erase (World.ne_nil_of_filePlace? hp) hc

theorem removeOne_of_not_remains (h : w.Without names w') (ht : ¬ w.Remains names t) :
    removeOne (.text t) w' = (w', some (.notFile t)) := by
  rw [removeOne, if_neg (mt h.remains_iff.mpr ht)]

/-- Names are gone through up to the first that leads to no file, when the files of the names
before it are gone. -/
theorem exists_forEach_removeOne (h : w.Without names w') (rest : List Text) :
    ∃ k w'', forEach removeOne (rest.map .text) w' = (w'', rest[k]?.map .notFile) ∧
      (∀ i < k, ∃ t, rest[i]? = some t ∧ w.Remains (names ++ rest.take i) t) ∧
      (∀ t, rest[k]? = some t → ¬ w.Remains (names ++ rest.take k) t) ∧
      w.Without (names ++ rest.take k) w'' := by
  induction rest generalizing names w' with
  | nil => exact ⟨0, w', rfl, by simp, by simp, by simpa using h⟩
  | cons t rest ih =>
      by_cases ht : w.Remains names t
      · obtain ⟨w₁, hone, hw₁⟩ := exists_removeOne h ht
        obtain ⟨k, w₂, hrest, hbefore, hat, hw₂⟩ := ih hw₁
        rw [List.append_assoc] at hw₂
        refine ⟨k + 1, w₂, ?_, ?_, ?_, hw₂⟩
        · rw [List.map_cons, forEach, hone]
          exact hrest
        · intro i hi
          cases i with
          | zero => exact ⟨t, rfl, by simpa using ht⟩
          | succ i =>
              obtain ⟨u, hu, hremains⟩ := hbefore i (Nat.lt_of_succ_lt_succ hi)
              rw [List.append_assoc] at hremains
              exact ⟨u, hu, hremains⟩
        · intro u hu
          have hnot := hat u hu
          rwa [List.append_assoc] at hnot
      · refine ⟨0, w', ?_, by simp, ?_, by simpa using h⟩
        · rw [List.map_cons, forEach, removeOne_of_not_remains h ht]
          rfl
        · intro u hu
          obtain rfl : t = u := Option.some.inj hu
          simpa using ht

/-- Names as arguments, the first of which is no flag: words, or the lines of one list. -/
inductive NameArguments : List Value → List Text → Prop
  | words {t : Text} {ts : List Text} (hne : t ≠ []) (hdash : t.head? ≠ some '-') :
      NameArguments ((t :: ts).map .text) (t :: ts)
  | lines {t : Text} {ts : List Text} (hdash : t ≠ ['-']) :
      NameArguments [.list ((t :: ts).map .text)] (t :: ts)

theorem NameArguments.withNames_eq {args : List Value} (h : NameArguments args names)
    (f : Value → World → World × Option Fault) (w : World) :
    withNames f args w =
      ⟨[], args, (forEach f (names.map .text) w).1, (forEach f (names.map .text) w).2⟩ := by
  cases h with
  | @words t ts hne hdash =>
      have haccepted : refuseFlag .noFlags ((t :: ts).map .text) = .ok () :=
        (lineSource_text (w := w) hne hdash rfl).accepted .noFlags
      rw [withNames, haccepted]
      rfl
  | @lines t ts hdash =>
      have haccepted : refuseFlag .noFlags [.list ((t :: ts).map .text)] = .ok () :=
        (lineSource_list w (List.cons_ne_nil t ts) (by simpa using hdash)).accepted .noFlags
      rw [withNames, haccepted]
      rfl

end Application

/-- Let `k` be the first position whose name leads to no file once the files of the names before
it are gone, or the number of names if there is none. The files of the names before `k` are removed
and nothing else is different; there is no output; and the removing fails, with the name at `k`,
just if there is one. -/
theorem rm_stops_at_first_missing {args : List Value} {names : List Text}
    (h : Application.NameArguments args names) (w : World) :
    ∃ k, (∀ i < k, ∃ t, names[i]? = some t ∧ w.Remains (names.take i) t) ∧
      (∀ t, names[k]? = some t → ¬ w.Remains (names.take k) t) ∧
      w.Without (names.take k) (Application.exec .rm args w).world ∧
      (Application.exec .rm args w).fault = names[k]?.map .notFile ∧
      (Application.exec .rm args w).added = [] ∧ (Application.exec .rm args w).args = args := by
  obtain ⟨k, w', hrun, hbefore, hat, hw'⟩ :=
    Application.exists_forEach_removeOne w.without_nil names
  have hexec : Application.exec .rm args w = ⟨[], args, w', names[k]?.map .notFile⟩ := by
    rw [Application.exec, Application.runRm, h.withNames_eq, hrun]
  rw [hexec]
  exact ⟨k, hbefore, hat, hw', rfl, rfl, rfl⟩

/-- Two paths to one file: the second leads nowhere any more, and the file named behind it stays. -/
theorem rm_stops_at_first_missing_again :
    let names := [" d/g\n".toList, "d/../d/g".toList, "f".toList]
    Application.NameArguments [.list (names.map .text)] names ∧
      World.unended.filePlace? " d/g\n".toList = some ["d".toList, "g".toList] ∧
      World.unended.filePlace? "d/../d/g".toList = some ["d".toList, "g".toList] ∧
      World.unended.Without [" d/g\n".toList]
        (Application.exec .rm [.list (names.map .text)] World.unended).world ∧
      ¬ World.unended.Remains [" d/g\n".toList] "d/../d/g".toList ∧
      (Application.exec .rm [.list (names.map .text)] World.unended).fault =
        some (.notFile "d/../d/g".toList) := by
  intro names
  have hnames : Application.NameArguments [.list (names.map .text)] names := .lines (by decide)
  have hfault : (Application.exec .rm [.list (names.map .text)] World.unended).fault =
      some (.notFile "d/../d/g".toList) := by decide +kernel
  obtain ⟨k, -, hat, hwithout, hend, -, -⟩ := rm_stops_at_first_missing hnames World.unended
  refine ⟨hnames, by decide +kernel, by decide +kernel, ?_⟩
  rw [hfault] at hend
  match k with
  | 0 => exact absurd hend (by decide)
  | 1 => exact ⟨hwithout, hat _ rfl, hfault⟩
  | 2 => exact absurd hend (by decide)
  | k + 3 => cases hend

end CommandShell
