import CommandShell.Proofs.PassedLines
import Mathlib.Data.List.Destutter

/-! # The first line of every run

Lines are compared with the line before them, not with the last line that was kept. As being alike
is an equivalence, a line that is passed over is like the one kept last, so both comparisons come to
the same, and what is kept is what the library calls destuttering. -/

namespace CommandShell

namespace Application

/-- Lines that are not alike. -/
def Differ (ignoreCase : Bool) (s t : Text) : Prop := essence ignoreCase s ≠ essence ignoreCase t

instance (ignoreCase : Bool) : DecidableRel (Differ ignoreCase) :=
  fun s t => inferInstanceAs (Decidable (essence ignoreCase s ≠ essence ignoreCase t))

/-- The indices at which a run starts: the first one, and every one whose line is not like the line
before it. -/
def startIndices (ignoreCase : Bool) (lines : List Text) : List Nat :=
  (List.range lines.length).filter fun k =>
    k = 0 || lines[k - 1]?.map (essence ignoreCase) ≠ lines[k]?.map (essence ignoreCase)

/-- The lines at which a run starts. -/
def startLines (ignoreCase : Bool) (lines : List Text) : List Text :=
  (startIndices ignoreCase lines).filterMap (lines[·]?)

section Starts

variable {ignoreCase : Bool}

/-- The line before the first one is at hand, so that index `k` of the lines with it in front is the
line before index `k` of those without. -/
theorem changes_eq_filterMap (before : Text) (ts : List Text) :
    changes ignoreCase before ts =
      ((List.range ts.length).filter fun k =>
        (before :: ts)[k]?.map (essence ignoreCase) ≠ ts[k]?.map (essence ignoreCase)).filterMap
          (ts[·]?) := by
  induction ts generalizing before with
  | nil => rfl
  | cons t ts ih =>
      rw [changes, ih t, List.length_cons, List.range_succ_eq_map, List.filter_cons,
        List.filter_map]
      by_cases h : essence ignoreCase before = essence ignoreCase t <;>
        simp [h, List.filterMap_map, Function.comp_def]

theorem startLines_cons (ignoreCase : Bool) (t : Text) (ts : List Text) :
    startLines ignoreCase (t :: ts) = t :: changes ignoreCase t ts := by
  rw [startLines, startIndices, changes_eq_filterMap, List.length_cons, List.range_succ_eq_map,
    List.filter_cons, List.filter_map]
  simp [List.filterMap_map, Function.comp_def]

/-- The line before is like the last one kept, which is all that the comparison depends on. -/
theorem destutter'_eq_changes {last before : Text}
    (h : essence ignoreCase last = essence ignoreCase before) (ts : List Text) :
    ts.destutter' (Differ ignoreCase) last = last :: changes ignoreCase before ts := by
  induction ts generalizing last before with
  | nil => rfl
  | cons t ts ih =>
      by_cases hbt : essence ignoreCase before = essence ignoreCase t
      · have halike : ¬ Differ ignoreCase last t := not_not.mpr (h.trans hbt)
        rw [List.destutter'_cons_neg _ halike, changes, if_pos hbt, ih (h.trans hbt)]
      · have hdiffer : Differ ignoreCase last t := fun hlt => hbt (h.symm.trans hlt)
        rw [List.destutter'_cons_pos _ hdiffer, changes, if_neg hbt, ih rfl]

theorem startLines_eq_destutter (ignoreCase : Bool) (lines : List Text) :
    startLines ignoreCase lines = lines.destutter (Differ ignoreCase) := by
  cases lines with
  | nil => rfl
  | cons t ts => rw [startLines_cons, List.destutter_cons', destutter'_eq_changes rfl]

theorem startLines_startLines (ignoreCase : Bool) (lines : List Text) :
    startLines ignoreCase (startLines ignoreCase lines) = startLines ignoreCase lines := by
  rw [startLines_eq_destutter, startLines_eq_destutter, List.destutter_idem]

theorem head?_startLines (ignoreCase : Bool) (lines : List Text) :
    (startLines ignoreCase lines).head? = lines.head? := by
  cases lines with
  | nil => rfl
  | cons t ts => rw [startLines_cons, List.head?_cons, List.head?_cons]

theorem mem_startIndices {lines : List Text} {k : Nat} :
    k ∈ startIndices ignoreCase lines ↔ k < lines.length ∧
      (k = 0 ∨ lines[k - 1]?.map (essence ignoreCase) ≠ lines[k]?.map (essence ignoreCase)) := by
  simp [startIndices]

/-- Up to the next start every line is like the one at the last start. -/
theorem exists_lastStart {lines : List Text} {k : Nat} (hk : k < lines.length) :
    ∃ j ∈ startIndices ignoreCase lines, j ≤ k ∧
      (∀ m ∈ startIndices ignoreCase lines, m ≤ k → m ≤ j) ∧
      lines[j]?.map (essence ignoreCase) = lines[k]?.map (essence ignoreCase) := by
  induction k with
  | zero => exact ⟨0, mem_startIndices.mpr ⟨hk, Or.inl rfl⟩, Nat.le_refl 0, fun _ _ h => h, rfl⟩
  | succ k ih =>
      by_cases hstart : k + 1 ∈ startIndices ignoreCase lines
      · exact ⟨k + 1, hstart, Nat.le_refl _, fun _ _ h => h, rfl⟩
      · obtain ⟨j, hj, hjk, hlast, halike⟩ := ih (Nat.lt_of_succ_lt hk)
        have hsame : lines[k]?.map (essence ignoreCase) =
            lines[k + 1]?.map (essence ignoreCase) := by
          by_contra hdiffer
          exact hstart (mem_startIndices.mpr ⟨hk, Or.inr hdiffer⟩)
        refine ⟨j, hj, Nat.le_succ_of_le hjk, fun m hm hle => ?_, halike.trans hsame⟩
        have hne : m ≠ k + 1 := fun heq => hstart (heq ▸ hm)
        exact hlast m hm (by omega)

theorem runStarts_texts (ignoreCase : Bool) {lines : List Text} (hl : lines ≠ []) :
    runStarts ignoreCase (lines.map .text) =
      ⟨(startLines ignoreCase lines).map .text, none⟩ := by
  obtain ⟨t, ts, rfl⟩ := List.exists_cons_of_ne_nil hl
  rw [List.map_cons, runStarts, changesAfter_texts, startLines_cons, List.map_cons]

end Starts

end Application

namespace LineFilter

open Application

variable {ignoreCase : Bool} {lines : List Text} {w : World}

theorem running_uniq {s : Value} (hl : lines ≠ []) (h : LineSource w (.ok (lines.map .text)) s) :
    (Application.uniq.exec ((uniq ignoreCase).arguments s) w).running =
      ((startLines ignoreCase lines).map .text, w, none) := by
  rw [Application.exec, runUniq_source h, Yield.after, runStarts_texts ignoreCase hl]
  rfl

theorem running_on_uniq (hl : lines ≠ []) (hdash : lines.head? ≠ some ['-']) :
    ((uniq ignoreCase).on lines w).running =
      ((startLines ignoreCase lines).map .text, w, none) :=
  running_uniq hl (lineSource_list w hl hdash)

/-- A first line that is a lone dash is taken for a flag. -/
theorem running_on_uniq_dash (hdash : lines.head? = some ['-']) :
    ((uniq ignoreCase).on lines w).running = ([], w, some .wrongFlag) := by
  obtain ⟨ls, rfl⟩ := List.head?_eq_some_iff.mp hdash
  cases ignoreCase <;> rfl

end LineFilter

open Application

/-- Of lines that are given to `uniq` in a file those are left at which a run starts: the first line
and every line that is not like the one before it. They are a subsequence of the lines, no two of
them that follow each other are alike, and every line is like the last one left at or before it. Of
lines that are passed to it the same are left, and the same again if it is run on what is left, just
if the first line is no lone dash; if it is, the lines are refused. -/
theorem uniq_keeps_starts_iff (ignoreCase : Bool) (w : World) {lines : List Text}
    (hl : lines ≠ []) :
    (startLines ignoreCase lines).Sublist lines ∧
      (startLines ignoreCase lines).IsChain (Differ ignoreCase) ∧
      (∀ k < lines.length, ∃ j ∈ startIndices ignoreCase lines, j ≤ k ∧
        (∀ m ∈ startIndices ignoreCase lines, m ≤ k → m ≤ j) ∧
        lines[j]?.map (essence ignoreCase) = lines[k]?.map (essence ignoreCase)) ∧
      (∀ f, f ≠ [] → f.head? ≠ some '-' → w.readLines f = .ok lines →
        (Application.uniq.exec ((LineFilter.uniq ignoreCase).arguments (.text f)) w).running =
          ((startLines ignoreCase lines).map .text, w, none)) ∧
      (((LineFilter.uniq ignoreCase).on lines w).running =
          ((startLines ignoreCase lines).map .text, w, none) ↔ lines.head? ≠ some ['-']) ∧
      (((LineFilter.uniq ignoreCase).on (startLines ignoreCase lines) w).running =
          ((startLines ignoreCase lines).map .text, w, none) ↔ lines.head? ≠ some ['-']) ∧
      (lines.head? = some ['-'] →
        ((LineFilter.uniq ignoreCase).on lines w).running = ([], w, some .wrongFlag)) := by
  -- Both equivalences are about lines with the same first line and the same starts.
  have hgiven : ∀ {ls : List Text}, ls ≠ [] → startLines ignoreCase ls =
      startLines ignoreCase lines → ls.head? = lines.head? →
      (((LineFilter.uniq ignoreCase).on ls w).running =
        ((startLines ignoreCase lines).map .text, w, none) ↔ lines.head? ≠ some ['-']) := by
    intro ls hls hsame hhead
    rw [← hsame, ← hhead]
    refine ⟨?_, LineFilter.running_on_uniq hls⟩
    intro hrun hdash
    rw [LineFilter.running_on_uniq_dash hdash] at hrun
    cases congrArg (fun r => r.2.2) hrun
  have hstarts : startLines ignoreCase lines ≠ [] := by
    obtain ⟨t, ts, rfl⟩ := List.exists_cons_of_ne_nil hl
    rw [startLines_cons]
    exact List.cons_ne_nil _ _
  refine ⟨?_, ?_, fun k => exists_lastStart, ?_, hgiven hl rfl rfl, ?_,
    LineFilter.running_on_uniq_dash⟩
  · rw [startLines_eq_destutter]
    exact List.destutter_sublist _ lines
  · rw [startLines_eq_destutter]
    exact List.isChain_destutter _ lines
  · intro f hne hdash hread
    exact LineFilter.running_uniq hl (lineSource_text hne hdash (World.openFile_of_ok hread))
  · exact hgiven hstarts (startLines_startLines ignoreCase lines)
      (head?_startLines ignoreCase lines)

/-- Lines that differ in blanks and case only are one run when case is ignored; a first line that is
a lone dash is refused, although the second line is no dash. -/
theorem uniq_keeps_starts_iff_blank :
    startLines true ["b\n".toList, " B".toList, "a\n".toList, "b \n".toList] =
        ["b\n".toList, "a\n".toList, "b \n".toList] ∧
      ((LineFilter.uniq true).on ["b\n".toList, " B".toList, "a\n".toList, "b \n".toList]
        World.odd).running =
        ((startLines true ["b\n".toList, " B".toList, "a\n".toList, "b \n".toList]).map .text,
          World.odd, none) ∧
      ((LineFilter.uniq false).on [['-'], ['a']] World.odd).running =
        ([], World.odd, some .wrongFlag) := by
  have hne : ["b\n".toList, " B".toList, "a\n".toList, "b \n".toList] ≠ [] := List.cons_ne_nil _ _
  obtain ⟨-, -, -, -, hpassed, -⟩ := uniq_keeps_starts_iff true World.odd hne
  have hdash := uniq_keeps_starts_iff false World.odd (List.cons_ne_nil ['-'] [['a']])
  exact ⟨by decide +kernel, hpassed.mpr (by decide), hdash.2.2.2.2.2.2 rfl⟩

end CommandShell
