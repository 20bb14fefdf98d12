import CommandShell.Proofs.SortedLines

/-! # Lines that are passed to an application

What is read from a file or given out by another call reaches an application as one argument, a
list of lines. Of every argument with a quote in it the ends are taken off, and a list has a quote
in it if one of its lines is nothing else; the first argument must not start with a dash, and a list
does if its first line is nothing else. So lines are passed on as they are only if none is a lone
quote, and sorted only if besides the first is no lone dash. -/

namespace CommandShell

namespace LineFilter

variable {lines : List Text}

instance (lines : List Text) : Decidable (Unquoted lines) :=
  inferInstanceAs (Decidable (_ ∧ _))

theorem heard_of_not (h : ¬ Unquoted lines) : heard lines = (lines.drop 1).dropLast :=
  if_pos (by rwa [Unquoted, ← not_or, not_not] at h)

theorem length_heard_eq_iff (hl : lines ≠ []) :
    (heard lines).length = lines.length ↔ Unquoted lines := by
  refine ⟨?_, fun h => by rw [heard_of_unquoted h]⟩
  intro hlength
  by_contra h
  have hpos := List.length_pos_of_ne_nil hl
  rw [heard_of_not h, List.length_dropLast, List.length_drop] at hlength
  omega

/-- Why lines are not sorted. -/
def sortRefusal : List Text → Option Fault
  | [] => some .listIndex
  | l :: _ => if l = ['-'] then some .wrongFlag else none

/-- A call of a filter without options, to which lines are passed. -/
def passed (a : LineFilter) (lines : List Text) (out : List Value) (w : World) :
    Command.Outcome :=
  Command.call [[.text a.application.name]] [.list (lines.map .text)] out w

theorem running_passed {a : LineFilter} (ha : a.options = []) (hl : lines ≠ [])
    (out : List Value) (w : World) :
    (a.passed lines out w).running =
      (out ++ (a.on (heard lines) w).added, w, (a.on (heard lines) w).fault) := by
  have hplain : ∀ t ∈ a.options, PlainWord t := by
    rw [ha]
    exact List.forall_mem_nil _
  have hspelled := spelledBy_options hplain w
  rw [ha, List.map_nil] at hspelled
  have hcall : Command.IsPlainCall [[.text a.application.name]] :=
    ⟨⟨_, rfl⟩, a.readsNothing_name []⟩
  have hprefixed := Command.running_call_prefixed hcall [.list (lines.map .text)] out [] w
  rw [List.append_nil, running_call_fed hspelled hl] at hprefixed
  exact hprefixed

theorem on_sort_refused {e : Fault} (h : sortRefusal lines = some e) (w : World) :
    (sort false).on lines w = .failed [.list (lines.map .text)] w e := by
  have hflag : (Value.list (lines.map .text)).isText "-r".toList = false := rfl
  have hrefused : Application.refuseFlag .wrongFlag [.list (lines.map .text)] = .error e := by
    cases lines with
    | nil =>
        cases h
        rfl
    | cons l ls =>
        simp only [sortRefusal] at h
        split at h
        · next hdash =>
            cases h
            rw [hdash]
            rfl
        · cases h
  simp only [on, application, arguments, options, Application.exec, Application.runSort,
    Bool.false_eq_true, if_false, List.map_nil, List.nil_append, hflag, hrefused]

theorem sortRefusal_eq_none_iff :
    sortRefusal lines = none ↔ lines ≠ [] ∧ lines.head? ≠ some ['-'] := by
  cases lines with
  | nil => simp [sortRefusal]
  | cons l ls => simp [sortRefusal]

theorem exists_on_sort (h : sortRefusal lines = none) (w : World) :
    ∃ sorted : List Text, sorted.Perm lines ∧ sorted.Pairwise (Text.inOrder false · ·) ∧
      (sort false).on lines w =
        .ofYield [.list (lines.map .text)] w ⟨sorted.map .text, none⟩ := by
  obtain ⟨hne, hdash⟩ := sortRefusal_eq_none_iff.mp h
  obtain ⟨sorted, harranged, hperm, hsorted⟩ := Application.exists_arranged false lines
  refine ⟨sorted, hperm, hsorted, ?_⟩
  rw [on, application, Application.exec,
    Application.runSort_source (lineSource_list w hne hdash), Yield.after, harranged]
  rfl

section Passed

variable (hl : lines ≠ []) (out : List Value) (w : World)
include hl

theorem running_passed_cat :
    (cat.passed lines out w).running = (out ++ (heard lines).map .text, w, none) := by
  rw [running_passed rfl hl, on_cat]
  rfl

theorem running_passed_sort_refused {e : Fault} (h : sortRefusal (heard lines) = some e) :
    ((sort false).passed lines out w).running = (out, w, some e) := by
  rw [running_passed rfl hl, on_sort_refused h]
  exact Prod.ext (List.append_nil out) rfl

theorem exists_running_passed_sort (h : sortRefusal (heard lines) = none) :
    ∃ sorted : List Text, sorted.Perm (heard lines) ∧ sorted.Pairwise (Text.inOrder false · ·) ∧
      ((sort false).passed lines out w).running = (out ++ sorted.map .text, w, none) := by
  obtain ⟨sorted, hperm, hsorted, hon⟩ := exists_on_sort h w
  refine ⟨sorted, hperm, hsorted, ?_⟩
  rw [running_passed rfl hl, hon]
  rfl

end Passed

theorem eq_of_given {given given' : List Text} {out : List Value} {w : World}
    (h : ((out ++ given.map .text, w, none) : Running) = (out ++ given'.map .text, w, none)) :
    given = given' := by
  have hmap := List.append_cancel_left (congrArg Prod.fst h)
  exact List.map_injective_iff.mpr (fun _ _ => Value.text.inj) hmap

end LineFilter

/-- Lines that are passed to `cat` come out as they are just if none is a lone quote; otherwise the
first and the last are missing. Lines that are passed to `sort` come out rearranged just if besides
the first is no lone dash. What is left of them is refused if it starts with a lone dash or nothing
is left, and comes out in order otherwise. -/
theorem passed_unaltered_iff {lines : List Text} (hl : lines ≠ []) (out : List Value) (w : World) :
    (LineFilter.cat.passed lines out w).running =
        (out ++ (LineFilter.heard lines).map .text, w, none) ∧
      ((LineFilter.cat.passed lines out w).running = (out ++ lines.map .text, w, none) ↔
        LineFilter.Unquoted lines) ∧
      (∀ e, LineFilter.sortRefusal (LineFilter.heard lines) = some e →
        ((LineFilter.sort false).passed lines out w).running = (out, w, some e)) ∧
      (LineFilter.sortRefusal (LineFilter.heard lines) = none →
        ∃ sorted : List Text, sorted.Perm (LineFilter.heard lines) ∧
          sorted.Pairwise (Text.inOrder false · ·) ∧
          ((LineFilter.sort false).passed lines out w).running =
            (out ++ sorted.map .text, w, none)) ∧
      ((∃ sorted : List Text, sorted.Perm lines ∧
          ((LineFilter.sort false).passed lines out w).running =
            (out ++ sorted.map .text, w, none)) ↔
        LineFilter.Unquoted lines ∧ lines.head? ≠ some ['-']) := by
  have hcat := LineFilter.running_passed_cat hl out w
  refine ⟨hcat, ?_, fun e => LineFilter.running_passed_sort_refused hl out w,
    LineFilter.exists_running_passed_sort hl out w, ?_, ?_⟩
  · rw [hcat, ← LineFilter.length_heard_eq_iff hl]
    constructor
    · intro h
      rw [LineFilter.eq_of_given h]
    · intro h
      rw [LineFilter.heard_of_unquoted ((LineFilter.length_heard_eq_iff hl).mp h)]
  · rintro ⟨sorted, hperm, hrun⟩
    cases hrefusal : LineFilter.sortRefusal (LineFilter.heard lines) with
    | some e =>
        rw [LineFilter.running_passed_sort_refused hl out w hrefusal] at hrun
        cases congrArg (fun r => r.2.2) hrun
    | none =>
        obtain ⟨sorted', hperm', -, hrun'⟩ :=
          LineFilter.exists_running_passed_sort hl out w hrefusal
        obtain rfl : sorted' = sorted := LineFilter.eq_of_given (hrun'.symm.trans hrun)
        have hunquoted : LineFilter.Unquoted lines :=
          (LineFilter.length_heard_eq_iff hl).mp (hperm'.symm.trans hperm).length_eq
        rw [LineFilter.heard_of_unquoted hunquoted] at hrefusal
        exact ⟨hunquoted, (LineFilter.sortRefusal_eq_none_iff.mp hrefusal).2⟩
  · rintro ⟨hunquoted, hdash⟩
    have hheard := LineFilter.heard_of_unquoted hunquoted
    have hrefusal := LineFilter.sortRefusal_eq_none_iff.mpr ⟨hl, hdash⟩
    rw [← hheard] at hrefusal
    obtain ⟨sorted, hperm, -, hrun⟩ := LineFilter.exists_running_passed_sort hl out w hrefusal
    exact ⟨sorted, hheard ▸ hperm, hrun⟩

/-- Three lines, of which the last is a lone quote: `cat` gives out the one in the middle, and as
that is a dash, `sort` refuses it. -/
theorem passed_unaltered_iff_quote :
    (LineFilter.cat.passed ["a\n".toList, ['-'], [Text.singleQuote]] [.text ['x']]
        World.odd).running = ([.text ['x'], .text ['-']], World.odd, none) ∧
      ((LineFilter.sort false).passed ["a\n".toList, ['-'], [Text.singleQuote]] [.text ['x']]
        World.odd).running = ([.text ['x']], World.odd, some .wrongFlag) ∧
      ∃ sorted : List Text, sorted.Perm [['b'], ['-'], ['a']] ∧
        ((LineFilter.sort false).passed [['b'], ['-'], ['a']] [.text ['x']] World.odd).running =
          (.text ['x'] :: sorted.map .text, World.odd, none) := by
  have hne : ["a\n".toList, ['-'], [Text.singleQuote]] ≠ [] := List.cons_ne_nil _ _
  obtain ⟨hcat, -, hrefused, -⟩ := passed_unaltered_iff hne [.text ['x']] World.odd
  have hsorted := passed_unaltered_iff (List.cons_ne_nil ['b'] [['-'], ['a']]) [.text ['x']]
    World.odd
  exact ⟨hcat, hrefused .wrongFlag rfl, hsorted.2.2.2.2.mpr (by decide)⟩

end CommandShell
