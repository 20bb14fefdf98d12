import CommandShell.Proofs.GuardedCalls

/-! # Where the paths go that a word stands for

A word that stands for paths is taken out of its row, and the paths are put at the end. The words
behind it move up, so that the next word comes to stand where the one taken out stood and is passed
over. The row that is left has the words that stay and then the paths, which is what the words come
to in their places only if no word follows one that is replaced. -/

namespace CommandShell

/-- The paths that a word with a star stands for. -/
def World.paths (w : World) (t : Text) : List Text :=
  if t.contains '*' then (w.expand t).toOption.getD [] else []

/-- Every word with a star can be looked up, and no path that is found has a star itself. -/
def World.Expands (w : World) (words : List Text) : Prop :=
  ∀ t ∈ words, '*' ∈ t → ∃ paths, w.expand t = .ok paths ∧ ∀ p ∈ paths, '*' ∉ p

namespace Expansion

variable (w : World)

/-- What a word comes to in its place: the paths that it stands for, or itself if there are none. -/
def inPlace (t : Text) : List Text := if w.paths t = [] then [t] else w.paths t

/-- The words that stay. A word right behind one that has been replaced is not looked at. -/
def kept : Bool → List Text → List Text
  | _, [] => []
  | true, t :: ts => t :: kept false ts
  | false, t :: ts => if w.paths t = [] then t :: kept false ts else kept true ts

/-- The paths that are found. -/
def found : Bool → List Text → List Text
  | _, [] => []
  | true, _ :: ts => found false ts
  | false, t :: ts => if w.paths t = [] then found false ts else w.paths t ++ found true ts

/-- The words that are not looked at. -/
def passedOver : Bool → List Text → List Text
  | _, [] => []
  | true, t :: ts => t :: passedOver false ts
  | false, t :: ts => passedOver (w.paths t ≠ []) ts

variable {w}

theorem star_mem_of_paths {t : Text} (h : w.paths t ≠ []) : '*' ∈ t := by
  by_contra hstar
  exact h (if_neg (by simpa using hstar))

theorem paths_eq {t : Text} {ps : List Text} (hstar : '*' ∈ t) (h : w.expand t = .ok ps) :
    w.paths t = ps := by
  rw [World.paths, if_pos (List.contains_iff_mem.mpr hstar), h]
  rfl

theorem star_notMem_paths {words : List Text} (h : w.Expands words) {t : Text} (ht : t ∈ words) :
    ∀ p ∈ w.paths t, '*' ∉ p := by
  intro p hp
  have hstar := star_mem_of_paths (List.ne_nil_of_mem hp)
  obtain ⟨ps, hps, hplain⟩ := h t ht hstar
  rw [paths_eq hstar hps] at hp
  exact hplain p hp

/-! ### The words one by one -/

section Words

variable {t : Text}

theorem inPlace_of_nil (h : w.paths t = []) : inPlace w t = [t] := if_pos h

theorem kept_of_nil (h : w.paths t = []) (ts : List Text) :
    kept w false (t :: ts) = t :: kept w false ts := if_pos h

theorem found_of_nil (h : w.paths t = []) (ts : List Text) :
    found w false (t :: ts) = found w false ts := if_pos h

theorem passedOver_of_nil (h : w.paths t = []) (ts : List Text) :
    passedOver w false (t :: ts) = passedOver w false ts := by
  rw [passedOver, decide_eq_false (not_not.mpr h)]

theorem inPlace_of_ne (h : w.paths t ≠ []) : inPlace w t = w.paths t := if_neg h

theorem kept_of_ne (h : w.paths t ≠ []) (ts : List Text) :
    kept w false (t :: ts) = kept w true ts := if_neg h

theorem found_of_ne (h : w.paths t ≠ []) (ts : List Text) :
    found w false (t :: ts) = w.paths t ++ found w true ts := if_neg h

theorem passedOver_of_ne (h : w.paths t ≠ []) (ts : List Text) :
    passedOver w false (t :: ts) = passedOver w true ts := by
  rw [passedOver, decide_eq_true h]

end Words

/-! ### The loop over the words -/

section Loop

variable {t : Text} {row : Row} {n : Nat}

theorem expandFrom_kept (h : '*' ∈ t → w.expand t = .ok (w.paths t)) (hnone : w.paths t = []) :
    Command.expandFrom w (n + 1) 0 (.text t :: row) = Command.expandFrom w n 1 (.text t :: row) := by
  rw [Command.expandFrom]
  simp only [List.getElem?_cons_zero, Value.has]
  by_cases hstar : '*' ∈ t
  · simp only [List.contains_iff_mem.mpr hstar, if_true, h hstar, hnone]
  · simp only [List.contains_eq_mem, hstar, decide_false, Bool.false_eq_true, if_false]

theorem expandFrom_replaced (h : '*' ∈ t → w.expand t = .ok (w.paths t)) (hsome : w.paths t ≠ []) :
    Command.expandFrom w (n + 1) 0 (.text t :: row) =
      Command.expandFrom w n 1 (row ++ (w.paths t).map .text) := by
  have hstar := star_mem_of_paths hsome
  rw [Command.expandFrom]
  simp only [List.getElem?_cons_zero, Value.has, List.contains_iff_mem.mpr hstar, if_true, h hstar]
  cases hpaths : w.paths t with
  | nil => exact absurd hpaths hsome
  | cons p ps => rfl

/-- The loop from a place in the row on: at the first word that is left, or at the one behind it. As
many words are looked at as there were at the start, so also paths that have been added are, which
have no star. -/
theorem expandFrom_words {words added : List Text} (h : w.Expands words)
    (hadded : ∀ p ∈ added, '*' ∉ p) (behind : Bool) {n : Nat}
    (hlow : words.length ≤ n + behind.toNat) (hhigh : n + behind.toNat ≤ words.length + added.length) :
    Command.expandFrom w n behind.toNat ((words ++ added).map .text) =
      ((kept w behind words ++ (added ++ found w behind words)).map .text, none) := by
  induction words generalizing added behind n with
  | nil =>
      have hplain : ∀ v ∈ added.map Value.text, v.has '*' = false :=
        List.forall_mem_map.mpr fun p hp => by simpa [Value.has] using hadded p hp
      rw [List.nil_append, Command.expandFrom_of_plain hplain]
      · simp [kept, found]
      · rw [List.length_map]
        simpa [Nat.add_comm] using hhigh
  | cons t ts ih =>
      have hts : w.Expands ts := fun u hu => h u (List.mem_cons_of_mem t hu)
      have hlookup : '*' ∈ t → w.expand t = .ok (w.paths t) := by
        intro hstar
        obtain ⟨ps, hps, -⟩ := h t List.mem_cons_self hstar
        rw [paths_eq hstar hps, hps]
      rw [List.length_cons] at hlow hhigh
      cases behind with
      | true =>
          rw [Bool.toNat_true] at hlow hhigh
          have hrest := ih hts hadded false (n := n) (by simpa using hlow) (by simp; omega)
          have hcons : (t :: ts ++ added).map Value.text = .text t :: (ts ++ added).map .text := rfl
          rw [Bool.toNat_false] at hrest
          rw [hcons, Bool.toNat_true, Command.expandFrom_cons, hrest]
          rfl
      | false =>
          rw [Bool.toNat_false] at hlow hhigh
          obtain ⟨m, rfl⟩ : ∃ m, n = m + 1 := ⟨n - 1, by omega⟩
          have hcons : (t :: ts ++ added).map Value.text = .text t :: (ts ++ added).map .text := rfl
          rw [hcons, Bool.toNat_false]
          by_cases hnone : w.paths t = []
          · have hrest := ih hts hadded false (n := m) (by simp; omega) (by simp; omega)
            rw [Bool.toNat_false] at hrest
            rw [expandFrom_kept hlookup hnone, Command.expandFrom_cons, hrest, kept_of_nil hnone,
              found_of_nil hnone]
            rfl
          · have hpaths : ∀ p ∈ added ++ w.paths t, '*' ∉ p :=
              List.forall_mem_append.mpr ⟨hadded, star_notMem_paths h List.mem_cons_self⟩
            have hpos := List.length_pos_of_ne_nil hnone
            have hrest := ih hts hpaths true (n := m) (by simp; omega)
              (by rw [List.length_append]; simp; omega)
            rw [expandFrom_replaced hlookup hnone, ← List.map_append, List.append_assoc,
              kept_of_ne hnone, found_of_ne hnone, ← Bool.toNat_true, hrest]
            simp only [List.append_assoc]

end Loop

/-- The words that stay come first, and then the paths that are found. -/
theorem expandRow_words {words : List Text} (h : w.Expands words) :
    Command.expandRow w (words.map .text) =
      ((kept w false words ++ found w false words).map .text, none) := by
  have hloop := expandFrom_words h (List.forall_mem_nil _) false (n := words.length)
    (Nat.le_refl _) (Nat.le_refl _)
  rw [List.append_nil] at hloop
  rw [Command.expandRow, List.length_map]
  exact hloop

/-! ### Paths in the places of their words -/

theorem mem_kept_of_mem_passedOver {words : List Text} {behind : Bool} {t : Text}
    (h : t ∈ passedOver w behind words) : t ∈ kept w behind words := by
  induction words generalizing behind with
  | nil => cases behind <;> cases h
  | cons u us ih =>
      cases behind with
      | true =>
          rcases List.mem_cons.mp h with rfl | h
          · exact List.mem_cons_self
          · exact List.mem_cons_of_mem _ (ih h)
      | false =>
          by_cases hnone : w.paths u = []
          · rw [passedOver_of_nil hnone] at h
            rw [kept_of_nil hnone]
            exact List.mem_cons_of_mem _ (ih h)
          · rw [passedOver_of_ne hnone] at h
            rw [kept_of_ne hnone]
            exact ih h

/-- If every word that is not looked at would stay anyway, nothing is missing. -/
theorem perm_inPlace {words : List Text} {behind : Bool}
    (h : ∀ t ∈ passedOver w behind words, w.paths t = []) :
    (kept w behind words ++ found w behind words).Perm (words.flatMap (inPlace w)) := by
  induction words generalizing behind with
  | nil => cases behind <;> exact List.Perm.refl _
  | cons t ts ih =>
      rw [List.flatMap_cons]
      cases behind with
      | true =>
          have hnone := h t List.mem_cons_self
          rw [inPlace_of_nil hnone]
          exact (ih fun u hu => h u (List.mem_cons_of_mem t hu)).cons t
      | false =>
          by_cases hnone : w.paths t = []
          · rw [passedOver_of_nil hnone] at h
            rw [inPlace_of_nil hnone, kept_of_nil hnone, found_of_nil hnone]
            exact (ih h).cons t
          · rw [passedOver_of_ne hnone] at h
            rw [inPlace_of_ne hnone, kept_of_ne hnone, found_of_ne hnone]
            exact (List.perm_append_comm_assoc _ _ _).trans ((ih h).append_left _)

/-- A word with a star that would be replaced is nowhere among what the words come to in their
places. -/
theorem notMem_inPlace {words : List Text} (h : w.Expands words) {t : Text} (ht : w.paths t ≠ []) :
    t ∉ words.flatMap (inPlace w) := by
  intro hmem
  obtain ⟨u, hu, hin⟩ := List.mem_flatMap.mp hmem
  by_cases hnone : w.paths u = []
  · rw [inPlace_of_nil hnone, List.mem_singleton] at hin
    exact ht (hin ▸ hnone)
  · rw [inPlace_of_ne hnone] at hin
    exact star_notMem_paths h hu t hin (star_mem_of_paths ht)

theorem perm_inPlace_iff {words : List Text} (h : w.Expands words) :
    (kept w false words ++ found w false words).Perm (words.flatMap (inPlace w)) ↔
      ∀ t ∈ passedOver w false words, w.paths t = [] := by
  refine ⟨?_, perm_inPlace⟩
  intro hperm t ht
  by_contra hsome
  have hkept := List.mem_append_left (found w false words) (mem_kept_of_mem_passedOver ht)
  exact notMem_inPlace h hsome (hperm.mem_iff.mp hkept)

/-- If only the last word is replaced, its paths are in its place. -/
theorem eq_inPlace_of_last {words : List Text} (h : ∀ t ∈ words.dropLast, w.paths t = []) :
    kept w false words ++ found w false words = words.flatMap (inPlace w) := by
  induction words with
  | nil => rfl
  | cons t ts ih =>
      by_cases hnone : w.paths t = []
      · have hts : ∀ u ∈ ts.dropLast, w.paths u = [] := by
          cases ts with
          | nil => exact List.forall_mem_nil _
          | cons u us => exact fun x hx => h x (List.mem_cons_of_mem t hx)
        rw [List.flatMap_cons, inPlace_of_nil hnone, kept_of_nil hnone, found_of_nil hnone,
          List.cons_append, ih hts]
        rfl
      · cases ts with
        | nil => simp [kept, found, inPlace, hnone]
        | cons u us => exact absurd (h t List.mem_cons_self) hnone

/-- If no path is one of the words that stay, paths are in the places of their words only where no
word follows. -/
theorem paths_of_eq_inPlace {words : List Text}
    (hapart : ∀ p ∈ found w false words, p ∉ kept w false words)
    (h : kept w false words ++ found w false words = words.flatMap (inPlace w)) :
    ∀ t ∈ words.dropLast, w.paths t = [] := by
  induction words with
  | nil => exact List.forall_mem_nil _
  | cons t ts ih =>
      cases ts with
      | nil => exact List.forall_mem_nil _
      | cons u us =>
          rw [List.flatMap_cons] at h
          by_cases hnone : w.paths t = []
          · rw [inPlace_of_nil hnone, kept_of_nil hnone, found_of_nil hnone] at h
            rw [kept_of_nil hnone, found_of_nil hnone] at hapart
            have hrest := ih (fun p hp hmem => hapart p hp (List.mem_cons_of_mem t hmem))
              (List.cons.inj h).2
            exact List.forall_mem_cons.mpr ⟨hnone, hrest⟩
          · -- The next word moves up to where the first path should be.
            obtain ⟨p, ps, hpaths⟩ := List.exists_cons_of_ne_nil hnone
            rw [inPlace_of_ne hnone, kept_of_ne hnone, found_of_ne hnone, hpaths] at h
            rw [kept_of_ne hnone, found_of_ne hnone, hpaths] at hapart
            have hfirst : u = p := (List.cons.inj h).1
            exact absurd (hfirst ▸ List.mem_cons_self) (hapart p List.mem_cons_self)

end Expansion

open Expansion

/-- The first row of a command after its words have been expanded: the words that stay, and behind
them the paths that were found for the others. These are the words and paths that the row comes to if
every word is replaced in its place, in another order, exactly if no word that stands right behind a
replaced one stands for paths itself. The order is the same as well if only the last word is
replaced, and, where no path is one of the words that stay, only then. -/
theorem expanded_in_place_iff {w : World} {words : List Text} (h : w.Expands words)
    (rest : List Row) :
    Command.expandRows w (words.map .text :: rest) =
        ((kept w false words ++ found w false words).map .text :: rest, none) ∧
      ((kept w false words ++ found w false words).Perm (words.flatMap (inPlace w)) ↔
        ∀ t ∈ passedOver w false words, w.paths t = []) ∧
      ((∀ t ∈ words.dropLast, w.paths t = []) →
        kept w false words ++ found w false words = words.flatMap (inPlace w)) ∧
      ((∀ p ∈ found w false words, p ∉ kept w false words) →
        (kept w false words ++ found w false words = words.flatMap (inPlace w) ↔
          ∀ t ∈ words.dropLast, w.paths t = [])) := by
  refine ⟨?_, perm_inPlace_iff h, eq_inPlace_of_last, fun hapart => ?_⟩
  · simp only [Command.expandRows, expandRow_words h]
  · exact ⟨paths_of_eq_inPlace hapart, eq_inPlace_of_last⟩

/-- A folder with two files. -/
def World.twoFiles : World :=
  { root := .folder [("a".toList, .file (.text [])), ("b".toList, .file (.text []))]
    top := []
    here := []
    terminal := false
    printed := []
    warned := [] }

/-- In `echo * z` the paths come behind the `z`, and in `echo * *` the second star stays. -/
theorem expanded_in_place_iff_star :
    (Command.expandRows World.twoFiles [["echo".toList, ['*'], ['z']].map .text]).1 =
        [["echo".toList, ['z'], ['a'], ['b']].map .text] ∧
      ["echo".toList, ['*'], ['z']].flatMap (inPlace World.twoFiles) =
        ["echo".toList, ['a'], ['b'], ['z']] ∧
      ¬ (kept World.twoFiles false ["echo".toList, ['*'], ['*']] ++
          found World.twoFiles false ["echo".toList, ['*'], ['*']]).Perm
        (["echo".toList, ['*'], ['*']].flatMap (inPlace World.twoFiles)) := by
  have hstar : World.twoFiles.expand ['*'] = .ok [['a'], ['b']] := rfl
  have hexpands : ∀ words : List Text, (∀ t ∈ words, '*' ∈ t → t = ['*']) →
      World.twoFiles.Expands words := by
    intro words hwords t ht hmem
    rw [hwords t ht hmem]
    exact ⟨_, hstar, by decide⟩
  have hrow := (expanded_in_place_iff
    (hexpands ["echo".toList, ['*'], ['z']] (by decide)) []).1
  have hperm := (expanded_in_place_iff
    (hexpands ["echo".toList, ['*'], ['*']] (by decide)) []).2.1
  refine ⟨congrArg Prod.fst hrow, by decide +kernel, ?_⟩
  rw [hperm]
  decide +kernel

end CommandShell
