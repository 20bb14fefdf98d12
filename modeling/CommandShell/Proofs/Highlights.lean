import CommandShell.Proofs.Filters

/-! # Highlighting keeps the text

What is highlighted differs from the text by marks only: when these are deleted the text is there
again. So a search gives the same lines on a terminal and elsewhere, marks apart. Every mark starts
with an escape character, which the lines are without; a pattern may hold anything. -/

namespace CommandShell

/-! ### Deleting marks -/

namespace Text

variable {mark t : Text} {c : Char}

/-- No occurrence starts in a text without the character with which it would start. -/
theorem replaceFrom_append_of_notMem (h : c ∉ t) (new rest : Text) :
    replaceFrom (c :: mark) new 0 (t ++ rest) = t ++ replaceFrom (c :: mark) new 0 rest := by
  induction t with
  | nil => rfl
  | cons d t ih =>
      obtain ⟨hcd, ht⟩ := not_or.mp (mt List.mem_cons.mpr h)
      have hprefix : ¬ (c :: mark).isPrefixOf (d :: (t ++ rest)) = true := by
        simp [List.isPrefixOf, hcd]
      rw [List.cons_append, replaceFrom, if_neg hprefix, ih ht, List.cons_append]

theorem replaceFrom_length (old new t rest : Text) :
    replaceFrom old new t.length (t ++ rest) = replaceFrom old new 0 rest := by
  induction t with
  | nil => rfl
  | cons d t ih => exact ih

/-- An occurrence at the start. -/
theorem replaceFrom_append_self (new rest : Text) :
    replaceFrom (c :: mark) new 0 (c :: mark ++ rest) =
      new ++ replaceFrom (c :: mark) new 0 rest := by
  have hprefix : (c :: mark).isPrefixOf (c :: (mark ++ rest)) = true :=
    List.isPrefixOf_iff_prefix.mpr (List.prefix_append (c :: mark) rest)
  rw [List.cons_append, replaceFrom, if_pos hprefix, List.length_cons, Nat.add_sub_cancel,
    replaceFrom_length]

end Text

namespace Application

/-- The character with which the marks start. -/
def escape : Char := Char.ofNat 27

theorem highlightOn_eq : highlightOn = escape :: "[96m".toList := rfl

theorem highlightOff_eq : highlightOff = escape :: "[39m".toList := rfl

/-- The text without the marks: those that switch the highlighting on are deleted, then those that
switch it off. -/
def unmarked (t : Text) : Text := Text.replaceAll highlightOff [] (Text.replaceAll highlightOn [] t)

section Unmarked

variable {pattern line t : Text}

theorem unmarked_nil : unmarked [] = [] := rfl

theorem unmarked_append (h : escape ∉ t) (rest : Text) :
    unmarked (t ++ rest) = t ++ unmarked rest := by
  change Text.replaceFrom highlightOff [] 0 (Text.replaceFrom highlightOn [] 0 (t ++ rest)) = _
  rw [highlightOn_eq, Text.replaceFrom_append_of_notMem h, highlightOff_eq,
    Text.replaceFrom_append_of_notMem h]
  rfl

theorem unmarked_of_notMem (h : escape ∉ t) : unmarked t = t := by
  have happend := unmarked_append h []
  rwa [List.append_nil, unmarked_nil, List.append_nil] at happend

theorem unmarked_on (rest : Text) : unmarked (highlightOn ++ rest) = unmarked rest := by
  change Text.replaceFrom highlightOff [] 0
    (Text.replaceFrom highlightOn [] 0 (highlightOn ++ rest)) = _
  rw [highlightOn_eq, Text.replaceFrom_append_self]
  rfl

/-- The mark that switches off is not the one that switches on, and holds no start of it. -/
theorem unmarked_off (rest : Text) : unmarked (highlightOff ++ rest) = unmarked rest := by
  have hon : Text.replaceFrom highlightOn [] 0 (highlightOff ++ rest) =
      highlightOff ++ Text.replaceFrom highlightOn [] 0 rest := by
    have hstart : ¬ highlightOn.isPrefixOf (highlightOff ++ rest) = true := by
      simp [highlightOn, highlightOff, List.isPrefixOf]
    rw [highlightOff_eq, List.cons_append] at hstart ⊢
    rw [Text.replaceFrom, if_neg hstart, highlightOn_eq,
      Text.replaceFrom_append_of_notMem (by decide)]
    rfl
  change Text.replaceFrom highlightOff [] 0
    (Text.replaceFrom highlightOn [] 0 (highlightOff ++ rest)) = _
  rw [hon, highlightOff_eq, Text.replaceFrom_append_self]
  rfl

theorem unmarked_marks (h : escape ∉ t) (rest : Text) :
    unmarked (highlightOn ++ t ++ highlightOff ++ rest) = t ++ unmarked rest := by
  rw [List.append_assoc, List.append_assoc, unmarked_on, unmarked_append h, unmarked_off]

/-- With marks around every occurrence found from the left: what is passed over belongs to an
occurrence that has been written. -/
theorem unmarked_replaceFrom (hpattern : pattern ≠ []) (skip : Nat) (h : escape ∉ line) :
    unmarked (Text.replaceFrom pattern (highlightOn ++ pattern ++ highlightOff) skip line) =
      line.drop skip := by
  fun_induction Text.replaceFrom pattern (highlightOn ++ pattern ++ highlightOff) skip line with
  | case1 skip => exact List.drop_nil.symm
  | case2 skip c cs ih => exact ih fun hmem => h (List.mem_cons_of_mem c hmem)
  | case3 c cs hprefix ih =>
      obtain ⟨rest, hrest⟩ := List.isPrefixOf_iff_prefix.mp hprefix
      have hplain : escape ∉ pattern := fun hmem =>
        h (hrest ▸ List.mem_append_left rest hmem)
      have hdrop : cs.drop (pattern.length - 1) = rest := by
        have hlength := List.length_pos_iff.mpr hpattern
        calc cs.drop (pattern.length - 1)
            = (c :: cs).drop (pattern.length - 1 + 1) := rfl
          _ = (pattern ++ rest).drop pattern.length := by rw [Nat.sub_add_cancel hlength, hrest]
          _ = rest := List.drop_left
      rw [unmarked_marks hplain, ih fun hmem => h (List.mem_cons_of_mem c hmem), hdrop, hrest]
      rfl
  | case4 c cs hprefix ih =>
      obtain ⟨hc, hcs⟩ := not_or.mp (mt List.mem_cons.mpr h)
      rw [← List.singleton_append, unmarked_append (by simpa using hc), ih hcs]
      rfl

/-- The marks of an empty pattern stand around every character. -/
theorem unmarked_flatMap (h : escape ∉ line) :
    unmarked (line.flatMap fun c => c :: (highlightOn ++ highlightOff)) = line := by
  induction line with
  | nil => rfl
  | cons c cs ih =>
      obtain ⟨hc, hcs⟩ := not_or.mp (mt List.mem_cons.mpr h)
      rw [List.flatMap_cons, List.cons_append, ← List.singleton_append,
        unmarked_append (by simpa using hc), List.append_assoc, unmarked_on, unmarked_off, ih hcs]
      rfl

theorem unmarked_highlight (pattern : Text) (h : escape ∉ line) :
    unmarked (highlight pattern line) = line := by
  rw [highlight, Text.replaceAll]
  split
  next hempty =>
    obtain rfl := List.isEmpty_iff.mp hempty
    rw [unmarked_marks List.not_mem_nil, List.nil_append, List.append_nil]
    exact unmarked_flatMap h
  next hne =>
    exact unmarked_replaceFrom (fun hnil => hne (List.isEmpty_iff.mpr hnil)) 0 h

theorem isEmpty_highlight (hpattern : pattern ≠ []) (h : escape ∉ line) :
    (highlight pattern line).isEmpty = line.isEmpty := by
  rw [Bool.eq_iff_iff, List.isEmpty_iff, List.isEmpty_iff]
  constructor
  · intro hnil
    rw [← unmarked_highlight pattern h, hnil, unmarked_nil]
  · rintro rfl
    rw [highlight, Text.replaceAll, if_neg (mt List.isEmpty_iff.mp hpattern)]
    rfl

end Unmarked

/-! ### Searching -/

section Searching

variable {pattern line : Text}

/-- A line comes out on a terminal just if it does elsewhere, and then with marks. -/
theorem exists_found (hpattern : pattern ≠ []) (h : escape ∉ line) :
    ∃ (shown plain : List Text) (fault : Option Fault),
      plain.Sublist [line] ∧ shown.map unmarked = plain ∧
      found true (.text pattern) [] (.text line) = ⟨shown.map .text, fault⟩ ∧
      found false (.text pattern) [] (.text line) = ⟨plain.map .text, fault⟩ := by
  simp only [found, matchLine]
  cases Pattern.compile pattern with
  | error e => exact ⟨[], [], _, List.nil_sublist _, rfl, rfl, rfl⟩
  | ok compiled =>
      by_cases hmatch : compiled.matches line = true
      · simp only [if_pos hmatch, if_true, Bool.false_eq_true, if_false,
          isEmpty_highlight hpattern h]
        split
        · exact ⟨[], [], none, List.nil_sublist _, rfl, rfl, rfl⟩
        · refine ⟨[highlight pattern line], [line], none, List.Sublist.refl _, ?_, rfl, rfl⟩
          rw [List.map_singleton, unmarked_highlight pattern h]
      · simp only [if_neg hmatch]
        exact ⟨[], [], none, List.nil_sublist _, rfl, rfl, rfl⟩

/-- Lines in turn, up to the first failure, which is the same. -/
theorem exists_each_found (hpattern : pattern ≠ []) {lines : List Text}
    (h : ∀ l ∈ lines, escape ∉ l) :
    ∃ (shown plain : List Text) (fault : Option Fault),
      plain.Sublist lines ∧ shown.map unmarked = plain ∧
      Yield.each (found true (.text pattern) []) (lines.map .text) = ⟨shown.map .text, fault⟩ ∧
      Yield.each (found false (.text pattern) []) (lines.map .text) =
        ⟨plain.map .text, fault⟩ := by
  induction lines with
  | nil => exact ⟨[], [], none, List.Sublist.refl _, rfl, rfl, rfl⟩
  | cons l lines ih =>
      obtain ⟨hl, hlines⟩ := List.forall_mem_cons.mp h
      obtain ⟨first, firstPlain, fault, hsub, hmarks, hon, hoff⟩ := exists_found hpattern hl
      simp only [List.map_cons, Yield.each, hon, hoff]
      cases fault with
      | some e =>
          exact ⟨first, firstPlain, some e, hsub.trans (List.sublist_append_left [l] lines),
            hmarks, rfl, rfl⟩
      | none =>
          obtain ⟨shown, plain, fault, hsub', hmarks', hon', hoff'⟩ := ih hlines
          refine ⟨first ++ shown, firstPlain ++ plain, fault, hsub.append hsub', ?_, ?_, ?_⟩
          · rw [List.map_append, hmarks, hmarks']
          · rw [hon', List.map_append]
          · rw [hoff', List.map_append]

end Searching

end Application

/-- Deleting the marks from a highlighted line gives the line back, for every pattern, be it empty
or like a mark. A search through lines gives out on a terminal as many items as elsewhere, which
are the same when their marks are deleted, and fails in the same way. -/
theorem highlight_keeps_text (pattern : Text) :
    (∀ line, Application.escape ∉ line →
      Application.unmarked (Application.highlight pattern line) = line) ∧
    (pattern ≠ [] → ∀ lines : List Text, (∀ l ∈ lines, Application.escape ∉ l) →
      ∀ w : World, ∃ (shown plain : List Text) (args : List Value) (fault : Option Fault),
        Application.exec .grep [.text pattern, .list (lines.map .text)]
            { w with terminal := true } =
          ⟨shown.map .text, args, { w with terminal := true }, fault⟩ ∧
        Application.exec .grep [.text pattern, .list (lines.map .text)]
            { w with terminal := false } =
          ⟨plain.map .text, args, { w with terminal := false }, fault⟩ ∧
        shown.length = plain.length ∧
        shown.map Application.unmarked = plain.map Application.unmarked ∧
        plain.map Application.unmarked = plain ∧ plain.Sublist lines) := by
  refine ⟨fun line => Application.unmarked_highlight pattern, fun hpattern lines hlines w => ?_⟩
  simp only [Application.exec, Application.runGrep]
  cases hflag : Application.refuseFlag .noFlags [.text pattern, .list (lines.map .text)] with
  | error e => exact ⟨[], [], _, some e, rfl, rfl, rfl, rfl, rfl, List.nil_sublist _⟩
  | ok _ =>
      obtain ⟨shown, plain, fault, hsub, hmarks, hon, hoff⟩ :=
        Application.exists_each_found hpattern hlines
      have hfixed : ∀ l ∈ plain, Application.unmarked l = id l := fun l hl =>
        Application.unmarked_of_notMem (hlines l (hsub.subset hl))
      have hplain : plain.map Application.unmarked = plain :=
        (List.map_congr_left hfixed).trans (List.map_id plain)
      refine ⟨shown, plain, [.list (lines.map .text)], fault, ?_, ?_, ?_, hmarks.trans hplain.symm,
        hplain, hsub⟩
      · simp only [Application.sourceItems, hon]
        rfl
      · simp only [Application.sourceItems, hoff]
        rfl
      · rw [← hmarks, List.length_map]

/-- A pattern that overlaps itself and one that is part of a mark. -/
theorem highlight_keeps_text_overlap :
    Application.unmarked (Application.highlight "96m".toList "[96m96m".toList) =
        "[96m96m".toList ∧
      ∃ (shown plain : List Text) (args : List Value) (fault : Option Fault),
        Application.exec .grep [.text "aa".toList, .list (["aaa\n".toList, "b\n".toList].map .text)]
            { World.odd with terminal := true } =
          ⟨shown.map .text, args, { World.odd with terminal := true }, fault⟩ ∧
        Application.exec .grep [.text "aa".toList, .list (["aaa\n".toList, "b\n".toList].map .text)]
            { World.odd with terminal := false } =
          ⟨plain.map .text, args, { World.odd with terminal := false }, fault⟩ ∧
        plain = ["aaa\n".toList] ∧ shown.map Application.unmarked = plain := by
  refine ⟨(highlight_keeps_text "96m".toList).1 _ (by decide), ?_⟩
  obtain ⟨shown, plain, args, fault, hon, hoff, -, hmarks, hplain, -⟩ :=
    (highlight_keeps_text "aa".toList).2 (by decide) ["aaa\n".toList, "b\n".toList] (by decide)
      World.odd
  have hadded : (Application.exec .grep
      [.text "aa".toList, .list (["aaa\n".toList, "b\n".toList].map .text)]
      { World.odd with terminal := false }).added = ["aaa\n".toList].map .text := by
    decide +kernel
  rw [hoff] at hadded
  have hlines : plain = ["aaa\n".toList] :=
    List.map_injective_iff.mpr (fun _ _ h => Value.text.inj h) hadded
  exact ⟨shown, plain, args, fault, hon, hoff, hlines, hmarks.trans hplain⟩

end CommandShell
