import CommandShell.Proofs.NestedLines

/-! # What is lost between back quotes

The output of a line between back quotes loses one character before it becomes part of a word: the
last character of the last text given out, whatever it is. Output of no texts at all costs the bare
text before it a character. -/

namespace CommandShell

namespace Drafting

/-- The word that texts given out come to between bare texts. -/
def substituted (before : Text) (items : List Text) (after : Text) : Text :=
  match items.getLast? with
  | none => before.dropLast ++ after
  | some last => pasted before items.dropLast last after

theorem substituted_nil (before after : Text) :
    substituted before [] after = before.dropLast ++ after := rfl

theorem substituted_concat (before : Text) (items : List Text) (last after : Text) :
    substituted before (items ++ [last]) after = pasted before items last after := by
  rw [substituted, List.getLast?_concat, List.dropLast_concat]

theorem joined_substituted (before : Text) (items : List Text) (after : Text) :
    joined 0 (trimLast (.text before :: items.map .text) ++ [.text after]) =
      .ok (substituted before items after) := by
  rcases List.eq_nil_or_concat items with rfl | ⟨init, last, rfl⟩
  · rw [substituted_nil]
    exact (joined_texts 0 [before.dropLast, after]).trans (by simp)
  · rw [List.concat_eq_append, substituted_concat, joined_output]

/-- A word for texts given out between bare texts, in which nothing is missing but blanks at the end
of what was given out. -/
def OnlyBlanksLost (before : Text) (items : List Text) (after word : Text) : Prop :=
  ∃ t blanks, word = before ++ (t ++ after) ∧ items.flatten = t ++ blanks ∧
    ∀ c ∈ blanks, Text.isBlank c = true

section Lost

variable {before after : Text} {items : List Text} {last : Text}

theorem onlyBlanksLost_nil_iff :
    OnlyBlanksLost before [] after (substituted before [] after) ↔ before = [] := by
  rw [substituted_nil]
  constructor
  · rintro ⟨t, blanks, hword, hout, -⟩
    obtain ⟨rfl, -⟩ : t = [] ∧ blanks = [] := by simpa using hout.symm
    have hlength := congrArg List.length hword
    simp only [List.length_append, List.length_dropLast, List.nil_append] at hlength
    exact List.length_eq_zero_iff.mp (by omega)
  · rintro rfl
    exact ⟨[], [], rfl, rfl, List.forall_mem_nil _⟩

theorem onlyBlanksLost_concat_iff :
    OnlyBlanksLost before (items ++ [last]) after (substituted before (items ++ [last]) after) ↔
      ∀ c ∈ last.getLast?, Text.isBlank c = true := by
  rw [substituted_concat, pasted]
  rcases List.eq_nil_or_concat last with rfl | ⟨cs, d, rfl⟩
  · refine iff_of_true ⟨items.flatten, [], ?_, by simp, List.forall_mem_nil _⟩ (by simp)
    simp
  · rw [List.concat_eq_append, List.dropLast_concat, List.getLast?_concat]
    constructor
    · rintro ⟨t, blanks, hword, hout, hblanks⟩ c hc
      -- What stands in the word is the output without its last character, so that is what is lost.
      have ht : t = items.flatten ++ cs := by
        have hsame := List.append_cancel_left hword
        rw [← List.append_assoc] at hsame
        exact (List.append_cancel_right hsame).symm
      have hlost : blanks = [d] := by
        rw [ht] at hout
        simpa using hout.symm
      rw [← Option.some.inj hc]
      exact hblanks d (by simp [hlost])
    · intro hblank
      refine ⟨items.flatten ++ cs, [d], by simp, by simp, ?_⟩
      exact List.forall_mem_singleton.mpr (hblank d rfl)

theorem onlyBlanksLost_iff (before : Text) (items : List Text) (after : Text) :
    OnlyBlanksLost before items after (substituted before items after) ↔
      (items = [] → before = []) ∧
        ∀ last ∈ items.getLast?, ∀ c ∈ last.getLast?, Text.isBlank c = true := by
  rcases List.eq_nil_or_concat items with rfl | ⟨init, last, rfl⟩
  · simpa using onlyBlanksLost_nil_iff
  · simpa using onlyBlanksLost_concat_iff

end Lost

end Drafting

/-- A call of bare words, with a line between back quotes in one of its arguments. -/
structure NestedCall where
  name : Text
  words : List Text
  before : Text
  inner : Text
  after : Text
  more : List Text
  isName : Application.isName name = true
  wordsBare : ∀ t ∈ words, t ≠ [] ∧ ∀ c ∈ t, c ∉ separators
  beforeBare : ∀ c ∈ before, c ∉ separators
  innerRunnable : ∀ c ∈ inner, c ∉ unrunnable
  afterBare : ∀ c ∈ after, c ∉ separators
  moreBare : ∀ t ∈ more, t ≠ [] ∧ ∀ c ∈ t, c ∉ separators

namespace NestedCall

variable (c : NestedCall)

/-- The argument with the line between back quotes. -/
def nested : Text := around Text.backQuote c.before c.inner c.after

def line : Text := c.name ++ following (c.words ++ c.nested :: c.more)

theorem backQuote_notMem_inner : Text.backQuote ∉ c.inner :=
  fun hmem => c.innerRunnable _ hmem (by decide)

theorem backQuoted?_nested : Drafting.backQuoted? c.nested = some (c.before, c.inner, c.after) :=
  Drafting.backQuoted?_around (fun hmem => c.beforeBare _ hmem (by decide))
    c.backQuote_notMem_inner c.after

theorem blocksOf_line :
    CallLine c.line ∧ blocksOf runPlain c.line =
      (fun word => [[c.name :: (c.words ++ word :: c.more)]]) <$>
        Drafting.substitution runPlain c.nested :=
  blocksOf_substitute_between c.isName c.wordsBare c.moreBare
    (readAs_back c.beforeBare c.innerRunnable c.afterBare) runPlain

variable {c} {w w' : World}

/-- The line between the back quotes is run as it is run on its own. -/
theorem runPlain_inner {out : List Value} (h : runLine c.inner [] w = (out, w', none)) :
    runPlain c.inner [.text c.before] w = (.text c.before :: out, w', none) := by
  rw [runPlain_eq_runLine c.backQuote_notMem_inner, runLine, runWith_append, ← runLine, h]
  rfl

theorem draftLine_of_word {word : Text}
    (h : Drafting.substitution runPlain c.nested w = .ok word w') :
    draftLine c.line w =
      ⟨.flat [c.name :: (c.words ++ word :: c.more)] 1 [], .ok [(.call, [0])], w'⟩ := by
  obtain ⟨hline, hblocks⟩ := c.blocksOf_line
  apply hline.draftWith_row
  rw [hblocks, map_eq_pure_bind, Drafting.bind_eq_of_ok h]
  rfl

theorem draftLine_of_fault {e : Fault}
    (h : Drafting.substitution runPlain c.nested w = .error e w') :
    (draftLine c.line w).commands = .error e ∧ (draftLine c.line w).world = w' := by
  obtain ⟨hline, hblocks⟩ := c.blocksOf_line
  have hmade : blocksOf runPlain c.line w = .error e w' := by
    rw [hblocks, map_eq_pure_bind, Drafting.bind_eq_of_error h]
  obtain ⟨d, hdraft⟩ := hline.draftWith_of_error hmade
  rw [draftLine, hdraft]
  exact ⟨rfl, rfl⟩

end NestedCall

/-- A line between back quotes that succeeds and gives out texts makes a word with the bare texts
around it. Nothing but blanks at the end of its output is missing there if and only if the last text
is empty or ends with a blank; or, if it gives out no text, if nothing stands before it. Otherwise
the word lacks a character of the output that is no blank, or one of the text before it. If the line
gives out a list, drafting fails. -/
theorem substitution_loses_only_blanks_iff (c : NestedCall) {w w' : World} {out : List Value}
    (hrun : runLine c.inner [] w = (out, w', none)) :
    (∀ items : List Text, out = items.map .text →
      let word := Drafting.substituted c.before items c.after
      (draftLine c.line w).draft.rows = [c.name :: (c.words ++ word :: c.more)] ∧
        (draftLine c.line w).commands = .ok [(.call, [0])] ∧ (draftLine c.line w).world = w' ∧
        (Drafting.OnlyBlanksLost c.before items c.after word ↔
          (items = [] → c.before = []) ∧
            ∀ last ∈ items.getLast?, ∀ d ∈ last.getLast?, Text.isBlank d = true)) ∧
    (∀ (items : List Text) (xs rest : List Value), out = items.map .text ++ .list xs :: rest →
      (draftLine c.line w).commands = .error (.joinList (items.length + 1)) ∧
        (draftLine c.line w).world = w') := by
  have hplain := NestedCall.runPlain_inner hrun
  constructor
  · rintro items rfl
    have hword := Drafting.substitution_of_ok c.backQuoted?_nested hplain
      (Drafting.joined_substituted c.before items c.after)
    rw [NestedCall.draftLine_of_word hword]
    exact ⟨rfl, rfl, rfl, Drafting.onlyBlanksLost_iff c.before items c.after⟩
  · rintro items xs rest rfl
    exact NestedCall.draftLine_of_fault (Drafting.substitution_of_error c.backQuoted?_nested hplain
      (Drafting.joined_output_list c.before items xs rest c.after))

/-- `wc` loses its last digit, and `cd`, which gives out nothing, takes a character from what stands
before it. -/
theorem substitution_loses_only_blanks_iff_wc :
    ((draftLine "echo x`wc f`y z".toList World.oneLine).draft.rows =
        [["echo".toList, "xf:1:1:y".toList, "z".toList]] ∧
      ¬ Drafting.OnlyBlanksLost ['x'] ["f:1:1:2".toList] ['y'] "xf:1:1:y".toList) ∧
    (draftLine "echo x`cd .`y".toList World.oneLine).draft.rows =
        [["echo".toList, ['y']]] ∧
      ¬ Drafting.OnlyBlanksLost ['x'] [] ['y'] ['y'] := by
  have hx : ∀ d ∈ ['x'], d ∉ separators := notMem_of_all (by decide)
  have hy : ∀ d ∈ ['y'], d ∉ separators := notMem_of_all (by decide)
  have hz : ∀ t ∈ [['z']], t ≠ [] ∧ ∀ d ∈ t, d ∉ separators :=
    List.forall_mem_singleton.mpr ⟨by simp, notMem_of_all (by decide)⟩
  let count : NestedCall := ⟨"echo".toList, [], ['x'], "wc f".toList, ['y'], [['z']], by decide,
    List.forall_mem_nil _, hx, notMem_of_all (by decide), hy, hz⟩
  let stay : NestedCall := ⟨"echo".toList, [], ['x'], "cd .".toList, ['y'], [], by decide,
    List.forall_mem_nil _, hx, notMem_of_all (by decide), hy, List.forall_mem_nil _⟩
  have hcount : runLine "wc f".toList [] World.oneLine =
      ([.text "f:1:1:2".toList], (runLine "wc f".toList [] World.oneLine).2.1, none) :=
    Running.eq_of_succeeds (by decide +kernel) (by decide +kernel)
  have hstay : runLine "cd .".toList [] World.oneLine =
      ([], (runLine "cd .".toList [] World.oneLine).2.1, none) :=
    Running.eq_of_succeeds (by decide +kernel) (by decide +kernel)
  obtain ⟨hrows, -, -, hlost⟩ :=
    (substitution_loses_only_blanks_iff count hcount).1 ["f:1:1:2".toList] rfl
  obtain ⟨hrows', -, -, hlost'⟩ := (substitution_loses_only_blanks_iff stay hstay).1 [] rfl
  have hline : "echo x`wc f`y z".toList = count.line := rfl
  have hline' : "echo x`cd .`y".toList = stay.line := rfl
  have hword : Drafting.substituted ['x'] ["f:1:1:2".toList] ['y'] = "xf:1:1:y".toList := by decide
  have hword' : Drafting.substituted ['x'] [] ['y'] = ['y'] := by decide
  rw [hword] at hrows hlost
  rw [hword'] at hrows' hlost'
  rw [hline, hline', hrows, hrows']
  refine ⟨⟨rfl, fun h => ?_⟩, rfl, fun h => ?_⟩
  · exact absurd ((hlost.mp h).2 _ rfl '2' rfl) (by decide)
  · exact absurd ((hlost'.mp h).1 rfl) (List.cons_ne_nil _ _)

end CommandShell
