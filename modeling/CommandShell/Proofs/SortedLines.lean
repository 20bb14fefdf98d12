import CommandShell.Proofs.PipeInput

/-! # Sorted lines without repetitions

Lines that are sorted and then rid of those that are like the line before them come out strictly in
order: two equal lines have only lines equal to them in between, and of these one is left. Lines
that differ in blanks at their ends are alike too, but need not stand together. -/

namespace CommandShell

namespace Text

variable {reverse : Bool} {s t u : Text}

theorem ble_iff : ble s t = true ↔ ¬ t < s := by
  induction s generalizing t with
  | nil => exact iff_of_true rfl (List.not_lt_nil t)
  | cons c s ih =>
      cases t with
      | nil => exact iff_of_false (by simp [ble]) (not_not.mpr (List.nil_lt_cons c s))
      | cons d t =>
          have hchar : d < c ↔ d.toNat < c.toNat := Iff.rfl
          rw [List.cons_lt_cons_iff, not_or, not_and, ← ih, ble, hchar]
          split
          · next hlt =>
              refine iff_of_true rfl ⟨by omega, ?_⟩
              rintro rfl
              exact absurd hlt (Nat.lt_irrefl _)
          · next hle =>
              split
              · next hlt => exact iff_of_false (by simp) fun h => h.1 hlt
              · next hge =>
                  have heq : d = c := Char.toNat_inj.mp (by omega)
                  simp [heq]

/-- May a line stand before another when lines are sorted? -/
def inOrder (reverse : Bool) (s t : Text) : Bool := if reverse then ble t s else ble s t

/-- Strictly in code-point order, or in its reverse. -/
def StrictlyInOrder (reverse : Bool) (s t : Text) : Prop := if reverse then t < s else s < t

theorem inOrder_total (reverse : Bool) (s t : Text) :
    inOrder reverse s t = true ∨ inOrder reverse t s = true := by
  cases reverse <;> simp only [inOrder, Bool.false_eq_true, if_true, if_false, ble_iff]
  · exact List.le_total s t
  · exact List.le_total t s

theorem inOrder_trans (hst : inOrder reverse s t = true) (htu : inOrder reverse t u = true) :
    inOrder reverse s u = true := by
  cases reverse <;> simp only [inOrder, Bool.false_eq_true, if_true, if_false, ble_iff] at *
  · exact List.le_trans hst htu
  · exact List.le_trans htu hst

theorem strictlyInOrder_of_ne (h : inOrder reverse s t = true) (hne : s ≠ t) :
    StrictlyInOrder reverse s t := by
  cases reverse <;>
    simp only [inOrder, StrictlyInOrder, Bool.false_eq_true, if_true, if_false, ble_iff] at *
  · exact (List.le_iff_lt_or_eq.mp h).resolve_right hne
  · exact (List.le_iff_lt_or_eq.mp h).resolve_right hne.symm

theorem StrictlyInOrder.after (h : StrictlyInOrder reverse t u) (hst : inOrder reverse s t = true) :
    StrictlyInOrder reverse s u := by
  cases reverse <;>
    simp only [inOrder, StrictlyInOrder, Bool.false_eq_true, if_true, if_false, ble_iff] at *
  · exact List.lt_of_le_of_lt hst h
  · by_contra hle
    exact hst (List.lt_of_le_of_lt hle h)

end Text

namespace Application

/-! ### Sorting -/

theorem exists_insertBy {before : Value → Value → Bool} {reverse : Bool}
    (hb : ∀ s t, before (.text s) (.text t) = Text.inOrder reverse s t) (t : Text) {us : List Text}
    (h : us.Pairwise (Text.inOrder reverse · ·)) :
    ∃ vs : List Text, insertBy before (.text t) (us.map .text) = vs.map .text ∧
      vs.Perm (t :: us) ∧ vs.Pairwise (Text.inOrder reverse · ·) := by
  induction us with
  | nil => exact ⟨[t], rfl, List.Perm.refl _, List.pairwise_singleton _ _⟩
  | cons u us ih =>
      obtain ⟨hu, hus⟩ := List.pairwise_cons.mp h
      rw [List.map_cons, insertBy, hb]
      by_cases htu : Text.inOrder reverse t u = true
      · rw [if_pos htu]
        refine ⟨t :: u :: us, rfl, List.Perm.refl _, List.pairwise_cons.mpr ⟨?_, h⟩⟩
        intro x hx
        rcases List.mem_cons.mp hx with rfl | hx
        · exact htu
        · exact Text.inOrder_trans htu (hu x hx)
      · rw [if_neg htu]
        obtain ⟨vs, hvs, hperm, hsorted⟩ := ih hus
        refine ⟨u :: vs, by rw [hvs, List.map_cons],
          (hperm.cons u).trans (List.Perm.swap t u us), List.pairwise_cons.mpr ⟨?_, hsorted⟩⟩
        intro x hx
        rcases List.mem_cons.mp (hperm.mem_iff.mp hx) with rfl | hx
        · exact (Text.inOrder_total reverse u x).resolve_right htu
        · exact hu x hx

theorem exists_sortBy {before : Value → Value → Bool} {reverse : Bool}
    (hb : ∀ s t, before (.text s) (.text t) = Text.inOrder reverse s t) (ts : List Text) :
    ∃ vs : List Text, sortBy before (ts.map .text) = vs.map .text ∧ vs.Perm ts ∧
      vs.Pairwise (Text.inOrder reverse · ·) := by
  induction ts with
  | nil => exact ⟨[], rfl, List.Perm.refl _, List.Pairwise.nil⟩
  | cons t ts ih =>
      obtain ⟨us, hus, hperm, hsorted⟩ := ih
      obtain ⟨vs, hvs, hperm', hsorted'⟩ := exists_insertBy hb t hsorted
      exact ⟨vs, by rw [List.map_cons, sortBy, hus, hvs], hperm'.trans (hperm.cons t), hsorted'⟩

/-- Texts can be sorted: they come out in order, every one as often as before. -/
theorem exists_arranged (reverse : Bool) (ts : List Text) :
    ∃ vs : List Text, arranged reverse (ts.map .text) = .ok (vs.map .text) ∧ vs.Perm ts ∧
      vs.Pairwise (Text.inOrder reverse · ·) := by
  have hfault : ∀ us : List Text, orderFault (us.map .text) = none := by
    intro us
    cases us with
    | nil => rfl
    | cons u us =>
        have hsame : ∀ x ∈ us.map Value.text, ¬ (isList x != isList (.text u)) = true :=
          List.forall_mem_map.mpr fun x _ => by simp [isList]
        rw [List.map_cons, orderFault, List.find?_eq_none.mpr hsame, Option.map_none]
  have hb : ∀ s t, (if reverse then fun a b => atMost b a else atMost) (.text s) (.text t) =
      Text.inOrder reverse s t := by
    intro s t
    cases reverse <;> simp [atMost, Text.inOrder]
  obtain ⟨vs, hvs, hperm, hsorted⟩ := exists_sortBy hb ts
  refine ⟨vs, ?_, hperm, hsorted⟩
  have hnone : orderFault (if reverse then (ts.map Value.text).reverse else ts.map .text) =
      none := by
    cases reverse with
    | false => exact hfault ts
    | true =>
        rw [if_pos rfl, ← List.map_reverse]
        exact hfault ts.reverse
  rw [arranged, hnone, hvs]

/-! ### Leaving out repetitions -/

/-- What is compared of a line. -/
def essence (ignoreCase : Bool) (t : Text) : Text :=
  Text.strip (if ignoreCase then Text.lower t else t)

/-- The lines that are not like the line before. -/
def changes (ignoreCase : Bool) (before : Text) : List Text → List Text
  | [] => []
  | t :: ts =>
      if essence ignoreCase before = essence ignoreCase t then changes ignoreCase t ts
      else t :: changes ignoreCase t ts

section Changes

variable {ignoreCase reverse : Bool}

theorem changesAfter_texts (ignoreCase : Bool) (before : Text) (ts : List Text) :
    changesAfter ignoreCase (.text before) (ts.map .text) =
      ⟨(changes ignoreCase before ts).map .text, none⟩ := by
  induction ts generalizing before with
  | nil => rfl
  | cons t ts ih =>
      have halike : alike ignoreCase (.text before) (.text t) =
          .ok (decide (essence ignoreCase before = essence ignoreCase t)) := rfl
      rw [List.map_cons, changesAfter, halike, changes]
      by_cases h : essence ignoreCase before = essence ignoreCase t
      · simp only [h, decide_true, if_true, ih]
      · simp only [h, decide_false, if_false, ih, List.map_cons]

theorem changes_sublist (before : Text) (ts : List Text) :
    (changes ignoreCase before ts).Sublist ts := by
  induction ts generalizing before with
  | nil => exact List.Sublist.refl _
  | cons t ts ih =>
      rw [changes]
      split
      · exact (ih t).cons t
      · exact (ih t).cons_cons t

/-- Every line is like one that is left: the one at the start of its run. -/
theorem exists_essence {before l : Text} {ts : List Text} (hl : l ∈ before :: ts) :
    ∃ g ∈ before :: changes ignoreCase before ts,
      essence ignoreCase l = essence ignoreCase g := by
  induction ts generalizing before with
  | nil => exact ⟨l, hl, rfl⟩
  | cons t ts ih =>
      rcases List.mem_cons.mp hl with rfl | hl
      · exact ⟨l, List.mem_cons_self, rfl⟩
      · obtain ⟨g, hg, heq⟩ := ih hl
        rw [changes]
        split
        · next halike =>
            rcases List.mem_cons.mp hg with rfl | hg
            · exact ⟨before, List.mem_cons_self, heq.trans halike.symm⟩
            · exact ⟨g, List.mem_cons_of_mem _ hg, heq⟩
        · exact ⟨g, List.mem_cons_of_mem _ hg, heq⟩

/-- In lines that are in order, those that are left are strictly so. The line before is taken along:
it may be left out itself, but what follows is strictly after it all the same. -/
theorem pairwise_changes {before : Text} {ts : List Text}
    (h : (before :: ts).Pairwise (Text.inOrder reverse · ·)) :
    (before :: changes ignoreCase before ts).Pairwise (Text.StrictlyInOrder reverse) := by
  induction ts generalizing before with
  | nil => exact List.pairwise_singleton _ _
  | cons t ts ih =>
      obtain ⟨hbefore, hts⟩ := List.pairwise_cons.mp h
      have hbt : Text.inOrder reverse before t = true := hbefore t List.mem_cons_self
      have hkept := ih hts
      obtain ⟨ht, hchanges⟩ := List.pairwise_cons.mp hkept
      rw [changes]
      split
      · exact List.pairwise_cons.mpr ⟨fun x hx => (ht x hx).after hbt, hchanges⟩
      · next hdiffer =>
          have hne : before ≠ t := by
            rintro rfl
            exact hdiffer rfl
          refine List.pairwise_cons.mpr ⟨?_, hkept⟩
          intro x hx
          rcases List.mem_cons.mp hx with rfl | hx
          · exact Text.strictlyInOrder_of_ne hbt hne
          · exact (ht x hx).after hbt

end Changes

/-- What is left of lines in order. -/
theorem exists_runStarts (ignoreCase : Bool) {reverse : Bool} {ts : List Text} (hne : ts ≠ [])
    (h : ts.Pairwise (Text.inOrder reverse · ·)) :
    ∃ given : List Text, runStarts ignoreCase (ts.map .text) = ⟨given.map .text, none⟩ ∧
      given.Pairwise (Text.StrictlyInOrder reverse) ∧ (∀ g ∈ given, g ∈ ts) ∧
      ∀ l ∈ ts, ∃ g ∈ given, essence ignoreCase l = essence ignoreCase g := by
  obtain ⟨t, us, rfl⟩ := List.exists_cons_of_ne_nil hne
  refine ⟨t :: changes ignoreCase t us, ?_, pairwise_changes h,
    ((changes_sublist t us).cons_cons t).subset, fun l => exists_essence⟩
  rw [List.map_cons, runStarts, changesAfter_texts, List.map_cons]

end Application

/-! ### The pipe -/

/-- A word that comes to itself, as it is in no need of quotes and no pattern for other names. -/
structure Command.OwnWord (w : World) (f : Text) : Prop where
  nonempty : f ≠ []
  unquoted : Command.unquote (.text f) = .text f
  alone : '*' ∈ f → w.expand f = .ok [] ∨ w.expand f = .ok [f]

instance (w : World) (f : Text) : Decidable (Command.OwnWord w f) :=
  decidable_of_iff (f ≠ [] ∧ Command.unquote (.text f) = .text f ∧
    ('*' ∈ f → w.expand f = .ok [] ∨ w.expand f = .ok [f]))
    ⟨fun h => ⟨h.1, h.2.1, h.2.2⟩, fun h => ⟨h.1, h.2, h.3⟩⟩

/-- A name that comes to itself and is no flag. -/
structure OwnName (w : World) (f : Text) : Prop extends Command.OwnWord w f where
  dash : f.head? ≠ some '-'

namespace Command

variable {w : World} {f : Text}

theorem expandFrom_append {row : Row} (h : ∀ v ∈ row, v.has '*' = false) (w : World) (more : Row)
    (n : Nat) {k i : Nat} (hi : i + k = row.length) :
    expandFrom w (k + n) i (row ++ more) = expandFrom w n row.length (row ++ more) := by
  induction k generalizing i with
  | zero => rw [Nat.zero_add, ← hi, Nat.add_zero]
  | succ k ih =>
      have hlt : i < row.length := by omega
      have hstar := h row[i] (List.getElem_mem hlt)
      rw [Nat.add_right_comm, expandFrom, List.getElem?_append_left hlt,
        List.getElem?_eq_getElem hlt]
      simp only [hstar, Bool.false_eq_true, if_false]
      exact ih (by omega)

theorem expandRow_concat {row : Row} (hrow : ∀ v ∈ row, v.has '*' = false) (h : OwnName w f) :
    expandRow w (row ++ [.text f]) = (row ++ [.text f], none) := by
  have hlast : expandFrom w 1 row.length (row ++ [.text f]) = (row ++ [.text f], none) := by
    simp only [expandFrom, List.getElem?_concat_length, Value.has, List.contains_iff_mem]
    by_cases hstar : '*' ∈ f
    · rw [if_pos hstar]
      rcases h.alone hstar with hnone | hself
      · rw [hnone]
      · -- The name is taken out at the end of the row and put back there.
        rw [hself]
        simp [List.eraseIdx_append_of_length_le]
    · rw [if_neg hstar]
  rw [expandRow, List.length_append, List.length_singleton,
    expandFrom_append hrow w _ 1 (Nat.zero_add _), hlast]

end Command

namespace LineFilter

variable {a : LineFilter} {w : World} {f : Text}

/-- A filter that is given a name, on its own or at the start of a pipe. -/
theorem running_call_named (ha : ∀ t ∈ a.options, PlainWord t) (h : OwnName w f)
    {input : List Value} (hi : input = [] ∨ input = [.list []]) :
    (Command.call [a.words ++ [.text f]] input [] w).running =
      (a.application.exec (a.arguments (.text f)) w).running := by
  have hreads : Command.ReadsNothing [a.words ++ [.text f]] :=
    a.readsNothing_name (a.options.map Value.text ++ [Value.text f])
  rw [Command.running_call_kept hreads (Command.expandRow_concat (Command.star_words ha) h),
    Command.runRow_words (Command.callArguments_named ha h.unquoted hi)]

/-- Among whole lines there is no lone quote. -/
theorem unquoted_of_whole {lines : List Text} (h : ∀ l ∈ lines, l.getLast? = some '\n') :
    Unquoted lines := by
  have hquote : ∀ c, c ≠ '\n' → [c] ∉ lines := fun c hc hmem => ne_char_of_whole (h _ hmem) hc rfl
  exact ⟨hquote _ (by decide), hquote _ (by decide)⟩

theorem plain_flag {t : Text} (h : PlainWord t) (given : Bool) :
    ∀ u ∈ if given then [t] else [], PlainWord u := by
  cases given with
  | false => exact List.forall_mem_nil _
  | true => exact List.forall_mem_singleton.mpr h

theorem plain_sort (reverse : Bool) : ∀ t ∈ (sort reverse).options, PlainWord t :=
  plain_flag ⟨by decide, by decide, by decide, by decide⟩ reverse

theorem plain_uniq (ignoreCase : Bool) : ∀ t ∈ (uniq ignoreCase).options, PlainWord t :=
  plain_flag ⟨by decide, by decide, by decide, by decide⟩ ignoreCase

/-- Sorting a file gives out all its lines in order. -/
theorem exists_running_call_sort {lines : List Text} (h : OwnName w f)
    (hread : w.readLines f = .ok lines) (reverse : Bool) :
    ∃ sorted : List Text, sorted.Perm lines ∧ sorted.Pairwise (Text.inOrder reverse · ·) ∧
      (Command.call [(sort reverse).words ++ [.text f]] [.list []] [] w).running =
        (sorted.map .text, w, none) := by
  obtain ⟨sorted, harranged, hperm, hsorted⟩ := Application.exists_arranged reverse lines
  have hsource := lineSource_text h.nonempty h.dash (World.openFile_of_ok hread)
  refine ⟨sorted, hperm, hsorted, ?_⟩
  rw [running_call_named (plain_sort reverse) h (Or.inr rfl), application, Application.exec,
    Application.runSort_source hsource, Yield.after, harranged]
  rfl

theorem running_call_sort_unreadable {e : Fault} (h : OwnName w f)
    (hread : w.readLines f = .error e) (reverse : Bool) :
    (Command.call [(sort reverse).words ++ [.text f]] [.list []] [] w).running =
      ([], w, some e) := by
  have hsource := lineSource_text h.nonempty h.dash (World.openFile_of_error hread)
  rw [running_call_named (plain_sort reverse) h (Or.inr rfl), application, Application.exec,
    Application.runSort_source hsource]
  rfl

theorem running_call_uniq {lines : List Text} (hne : lines ≠ [])
    (hwhole : ∀ l ∈ lines, l.getLast? = some '\n') (ignoreCase : Bool) (w : World) :
    (Command.call [(uniq ignoreCase).words] [.list (lines.map .text)] [] w).running =
      ((Application.runStarts ignoreCase (lines.map .text)).items, w,
        (Application.runStarts ignoreCase (lines.map .text)).fault) := by
  have hcall := running_call_fed (spelledBy_options (plain_uniq ignoreCase) w) hne
  rw [heard_of_unquoted (unquoted_of_whole hwhole), on, application, Application.exec,
    Application.runUniq_source (lineSource_list w hne (head?_ne_of_whole hwhole))] at hcall
  exact hcall

/-- The rows of a pipe that sorts a file and leaves out repetitions. -/
def sortUniq (reverse ignoreCase : Bool) (f : Text) : List Row :=
  [(sort reverse).words ++ [.text f], (uniq ignoreCase).words]

theorem running_sortUniq (reverse ignoreCase : Bool) (w : World) (f : Text) (out : List Value) :
    (Command.run .pipe (sortUniq reverse ignoreCase f) [] out w).running =
      (Command.call [(sort reverse).words ++ [.text f]] [.list []] [] w).andThen fun _ out w =>
        (Command.call [(uniq ignoreCase).words] [.list out] [] w).running := by
  have hsort : Command.IsBlock [(sort reverse).words ++ [.text f]] :=
    (sort reverse).isBlock_name ((sort reverse).options.map .text ++ [.text f])
  exact Command.running_run_pair hsort ((uniq ignoreCase).isBlock_name _) out w

end LineFilter

/-- A file of whole lines that is sorted and rid of repetitions comes out strictly in order; all
that comes out are lines of the file, and every line of the file comes out but for blanks around it,
and for its case if that is ignored. If the file cannot be read, nothing comes out. The name of the
file has to come to itself. -/
theorem sort_uniq_strict {w : World} {f : Text} (h : OwnName w f) (reverse ignoreCase : Bool)
    (out : List Value) :
    (∀ lines, w.readLines f = .ok lines → lines ≠ [] →
      (∀ l ∈ lines, l.getLast? = some '\n') →
      ∃ given : List Text,
        (Command.run .pipe (LineFilter.sortUniq reverse ignoreCase f) [] out w).running =
          (given.map .text, w, none) ∧
        given.Pairwise (Text.StrictlyInOrder reverse) ∧ (∀ g ∈ given, g ∈ lines) ∧
        ∀ l ∈ lines, ∃ g ∈ given,
          Application.essence ignoreCase l = Application.essence ignoreCase g) ∧
      ∀ e, w.readLines f = .error e →
        (Command.run .pipe (LineFilter.sortUniq reverse ignoreCase f) [] out w).running =
          ([], w, some e) := by
  constructor
  · intro lines hread hne hwhole
    obtain ⟨sorted, hperm, hsorted, hsort⟩ := LineFilter.exists_running_call_sort h hread reverse
    have hsortedne : sorted ≠ [] := fun hnil => hne (List.nil_perm.mp (hnil ▸ hperm))
    have hsortedwhole : ∀ l ∈ sorted, l.getLast? = some '\n' := fun l hl =>
      hwhole l (hperm.mem_iff.mp hl)
    have huniq := LineFilter.running_call_uniq hsortedne hsortedwhole ignoreCase w
    obtain ⟨given, hgiven, hstrict, hsub, hall⟩ :=
      Application.exists_runStarts ignoreCase hsortedne hsorted
    rw [hgiven] at huniq
    refine ⟨given, ?_, hstrict, fun g hg => hperm.mem_iff.mp (hsub g hg),
      fun l hl => hall l (hperm.mem_iff.mpr hl)⟩
    rw [LineFilter.running_sortUniq, Command.Outcome.andThen_of_done hsort]
    exact huniq
  · intro e hread
    have hsort := LineFilter.running_call_sort_unreadable h hread reverse
    rw [LineFilter.running_sortUniq, Command.Outcome.andThen_of_failed hsort]

/-- Files whose names look like a pattern and like a flag, and one with an octet that starts no
character. -/
def World.oddNames : World :=
  { World.odd with root := .folder [
      ("a*".toList, .file (.text " b\na\nb\na\n".toList)),
      ("g".toList, .file (.octets [97, 255, 98, 10])),
      ("-f".toList, .file (.text "b\na\n".toList))] }

/-- The pattern describes its own name only. Lines that are alike but for a blank both come out, as
another line is sorted between them. -/
theorem sort_uniq_strict_pattern :
    OwnName World.oddNames "a*".toList ∧ OwnName World.oddNames "g".toList ∧
      (Command.run .pipe (LineFilter.sortUniq true false "a*".toList) [] [] World.oddNames).out =
        ["b\n", "a\n", " b\n"].map (.text ·.toList) ∧
      (∃ given : List Text,
        (Command.run .pipe (LineFilter.sortUniq true false "a*".toList) [] []
          World.oddNames).running = (given.map .text, World.oddNames, none) ∧
        given.Pairwise (Text.StrictlyInOrder true) ∧
        (∀ g ∈ given, g ∈ [" b\n".toList, "a\n".toList, "b\n".toList, "a\n".toList]) ∧
        ∃ g ∈ given, Application.essence false "a\n".toList = Application.essence false g) ∧
      (Command.run .pipe (LineFilter.sortUniq false false "g".toList) [] []
        World.oddNames).running =
        ([], World.oddNames, some (.decoding ⟨.badStart, 1, [255]⟩)) := by
  have hpattern : OwnName World.oddNames "a*".toList :=
    ⟨⟨by decide, by decide, fun _ => Or.inr rfl⟩, by decide⟩
  have hoctets : OwnName World.oddNames "g".toList :=
    ⟨⟨by decide, by decide, fun h => absurd h (by decide)⟩, by decide⟩
  obtain ⟨given, hrun, hstrict, hsub, hall⟩ := (sort_uniq_strict hpattern true false []).1
    [" b\n".toList, "a\n".toList, "b\n".toList, "a\n".toList] (by decide +kernel) (by decide)
    (by decide)
  refine ⟨hpattern, hoctets, by decide +kernel, ⟨given, hrun, hstrict, hsub, ?_⟩, ?_⟩
  · exact hall _ (by decide)
  · exact (sort_uniq_strict hoctets false false []).2 _ (by decide +kernel)

/-- A file of whole lines whose name looks like a flag: the sorting refuses it. -/
theorem sort_uniq_flag :
    World.oddNames.readLines "-f".toList = .ok ["b\n".toList, "a\n".toList] ∧
      (Command.run .pipe (LineFilter.sortUniq false false "-f".toList) [] [] World.oddNames).out =
        [] ∧
      (Command.run .pipe (LineFilter.sortUniq false false "-f".toList) [] [] World.oddNames).fault =
        some .wrongFlag := by
  refine ⟨by decide +kernel, by decide +kernel, by decide +kernel⟩

end CommandShell
