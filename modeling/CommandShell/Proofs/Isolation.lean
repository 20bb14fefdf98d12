import CommandShell.Proofs.CallRows
import CommandShell.Proofs.Filters

/-! # What a call of a sequence leaves to the next

The calls of a sequence are run on one input. What a call has read from a file stays in it, so the
next call is given these lines too, whether it asks for input or not. -/

namespace CommandShell.Command

/-- The operators of redirections. -/
inductive Operator where
  | input
  | output
  | appending
deriving DecidableEq, Repr

def Operator.text : Operator → Text
  | .input => ['<']
  | .output => ['>']
  | .appending => ['>', '>']

/-- An application with its words, and redirections with theirs. -/
structure Invocation where
  name : Text
  isName : Application.isName name = true
  words : List Value
  redirections : List (Operator × List Value)

namespace Invocation

def rows (c : Invocation) : List Row :=
  (.text c.name :: c.words) :: c.redirections.map (fun r => .text r.1.text :: r.2)

theorem isBlock_rows (c : Invocation) : IsBlock c.rows := by
  refine ⟨c.isName, ?_⟩
  intro row hrow
  obtain ⟨⟨operator, words⟩, -, rfl⟩ := List.mem_map.mp hrow
  change namesApplication (.text operator.text) = false
  cases operator <;> decide

theorem running_sequence (c d : Invocation) (input out : List Value) (w : World) :
    (run .sequence (c.rows ++ d.rows) input out w).running =
      (call c.rows input out w).andThen fun input out w' => (call d.rows input out w').running := by
  have hd : ∀ b ∈ [d.rows], IsBlock b := by simpa using d.isBlock_rows
  have hpair := running_run_sequence c.isBlock_rows hd input out w
  rw [List.flatten_singleton] at hpair
  rw [hpair, running_runSequence_cons]
  simp only [running_runSequence_singleton]

/-- The lines that a call has read are the input of the next. -/
theorem running_sequence_linesRead (c d : Invocation) (w : World) :
    (run .sequence (c.rows ++ d.rows) [] [] w).running =
      (call c.rows [] [] w).andThen fun _ out w' =>
        (call d.rows (linesRead w c.rows) out w').running := by
  rw [running_sequence]
  cases hf : (call c.rows [] [] w).fault with
  | some e => rw [Outcome.andThen_of_fault hf, Outcome.andThen_of_fault hf]
  | none =>
      rw [Outcome.andThen_of_none hf, Outcome.andThen_of_none hf, input_call hf, List.nil_append]

end Invocation

end CommandShell.Command

namespace CommandShell

/-- No file that can be read has a line. -/
def World.Blank (w : World) : Prop := ∀ file lines, w.openFile file = .ok lines → lines = []

namespace Command

theorem callArguments_of_size {first : Value} (h : first.size = 0) (words rest : List Value) :
    callArguments words (first :: rest) = words.map unquote := by
  simp only [callArguments, h, if_true]

theorem linesRead_of_blank {w : World} (h : w.Blank) {rows : List Row} {v : Value}
    (hv : v ∈ linesRead w rows) : v = .list [] := by
  obtain ⟨row, -, hrow⟩ := List.mem_filterMap.mp hv
  match row, hrow with
  | [sign, file], hrow =>
      simp only [linesOf?] at hrow
      split at hrow
      · cases ho : w.openFile file with
        | error e => simp [ho, Except.toOption] at hrow
        | ok lines =>
            rw [h file lines ho] at ho
            simpa [ho, Except.toOption] using hrow.symm
      · cases hrow

/-- Where no file has lines, an empty list as input is as good as no input. -/
theorem running_call_of_blank {w : World} (h : w.Blank) (rows : List Row) (out : List Value) :
    (call rows [.list []] out w).running = (call rows [] out w).running := by
  apply running_call_congr
  intro hf words
  rw [List.singleton_append, callArguments_of_size rfl, List.nil_append]
  cases hlines : linesRead w rows with
  | nil => rfl
  | cons v vs =>
      have hmem : v ∈ linesRead w rows := by simp [hlines]
      have hv : v = .list [] := linesRead_of_blank h hmem
      rw [hv, callArguments_of_size rfl]

/-! ## Telling the two apart

A call of `echo` without words fails if it is given lines, and gives out nothing if it is not. -/

def echoRow : Row := [.text "echo".toList]

theorem fault_afterIntake_echo (input out : List Value) (w : World) :
    (afterIntake [echoRow] input out w).2.2 =
      (Application.runEcho (callArguments [] input) w).fault := by
  have hexpand : expandRow w echoRow = (echoRow, none) :=
    expandRow_of_plain (by simp [echoRow, Value.has]) w
  have hrow : runRow echoRow input w = Application.runEcho (callArguments [] input) w := rfl
  simp only [afterIntake, expandRows, hexpand, List.headD_cons, hrow]
  cases hf : (Application.runEcho (callArguments [] input) w).fault with
  | some e => rfl
  | none => rfl

theorem fault_echo_lines {lines : List Value} (h : lines ≠ []) (rest out : List Value)
    (w : World) : (afterIntake [echoRow] (.list lines :: rest) out w).2.2 = some .addToList := by
  have hsize : (Value.list lines).size ≠ 0 := by simpa [Value.size] using h
  have hfirst : ∃ xs, unquote (.list lines) = .list xs := by
    unfold unquote
    split
    · exact ⟨_, rfl⟩
    · exact ⟨_, rfl⟩
  obtain ⟨xs, hxs⟩ := hfirst
  rw [fault_afterIntake_echo]
  simp only [callArguments, if_neg hsize, List.nil_append, List.map_cons, hxs]
  rfl

theorem fault_echo_blank (input out : List Value) (w : World)
    (h : ∀ v ∈ input.head?, v.size = 0) :
    (afterIntake [echoRow] input out w).2.2 = none := by
  rw [fault_afterIntake_echo]
  cases input with
  | nil => rfl
  | cons v vs =>
      rw [callArguments_of_size (h v (by simp))]
      rfl

namespace Invocation

/-- A call of `echo` without words. -/
def echo : Invocation := ⟨"echo".toList, by decide, [], []⟩

/-- A call of `echo` without words that reads a file. -/
def echoFrom (file : Value) : Invocation := ⟨"echo".toList, by decide, [], [(.input, [file])]⟩

theorem fault_call_echo (given out : List Value) (w : World) :
    (call echo.rows given out w).running.2.2 = (afterIntake [echoRow] given out w).2.2 := by
  have hintake : takeInput w echo.rows [] = ⟨[], none, none⟩ := rfl
  have hlines : linesRead w echo.rows = [] := rfl
  rw [running_call (by rw [hintake]), hintake, hlines, List.append_nil]
  rfl

theorem fault_call_echoFrom {w : World} {file : Value} {lines : List Value}
    (h : w.openFile file = .ok lines) (given out : List Value) :
    (call (echoFrom file).rows given out w).running.2.2 =
      (afterIntake [echoRow] (given ++ [.list lines]) out w).2.2 := by
  have hintake : takeInput w (echoFrom file).rows [] = ⟨[.list lines], some 1, none⟩ := by
    simp [takeInput, echoFrom, rows, takeInputFrom, Value.isText, Operator.text, h]
  have hlines : linesRead w (echoFrom file).rows = [.list lines] := by
    have hecho : (Value.text "echo".toList).isText ['<'] = false := by decide
    have hsign : (Value.text ['<']).isText ['<'] = true := by decide
    exact (linesRead_cons_of_not hecho [] _).trans (linesRead_cons_of_open hsign h [])
  rw [running_call (by rw [hintake]), hintake, hlines]
  rfl

/-- Lines that were read and are not empty make the next call fail that takes no input. -/
theorem not_isolated_of_lines {lines : List Value} (h : lines ≠ []) (out : List Value)
    (w : World) :
    (call echo.rows [.list lines] out w).running ≠ (call echo.rows [] out w).running := by
  intro heq
  have hfault := congrArg (fun r : Running => r.2.2) heq
  simp only [fault_call_echo] at hfault
  rw [fault_echo_lines h, fault_echo_blank [] out w (by simp)] at hfault
  cases hfault

/-- After an empty file the next call loses the lines that it reads itself. -/
theorem not_isolated_of_open {w : World} {file : Value} {lines : List Value}
    (ho : w.openFile file = .ok lines) (h : lines ≠ []) (out : List Value) :
    (call (echoFrom file).rows [.list []] out w).running ≠
      (call (echoFrom file).rows [] out w).running := by
  intro heq
  have hfault := congrArg (fun r : Running => r.2.2) heq
  simp only [fault_call_echoFrom ho, List.nil_append, List.singleton_append] at hfault
  rw [fault_echo_lines h, fault_echo_blank _ out w (by simp [Value.size])] at hfault
  cases hfault

/-- What was read before makes no difference to any later call if and only if it is nothing, or
an empty list where no file has lines. -/
theorem unaffected_iff {read : List Value} (h : read = [] ∨ ∃ lines, read = [.list lines])
    (out : List Value) (w : World) :
    (∀ d : Invocation, (call d.rows read out w).running = (call d.rows [] out w).running) ↔
      read = [] ∨ (read = [.list []] ∧ w.Blank) := by
  constructor
  · intro hall
    obtain rfl | ⟨lines, rfl⟩ := h
    · exact Or.inl rfl
    · have hnil : lines = [] := by
        by_contra hne
        exact not_isolated_of_lines hne out w (hall echo)
      subst hnil
      refine Or.inr ⟨rfl, ?_⟩
      intro file lines ho
      by_contra hne
      exact not_isolated_of_open ho hne out (hall (echoFrom file))
  · rintro (rfl | ⟨rfl, hblank⟩) d
    · rfl
    · exact running_call_of_blank hblank d.rows out

end Invocation

/-- In a sequence of two calls the second is given the lines that the first has read. Whatever
the second call is, this makes no difference if and only if the first call fails, reads no file,
or reads an empty one and leaves no file with lines. -/
theorem sequence_isolated_iff (c : Invocation) (w : World) :
    (∀ d : Invocation, (run .sequence (c.rows ++ d.rows) [] [] w).running =
        (call c.rows [] [] w).andThen fun _ out w' =>
          (call d.rows (linesRead w c.rows) out w').running) ∧
      ((∀ d : Invocation, (run .sequence (c.rows ++ d.rows) [] [] w).running =
          (call c.rows [] [] w).andThen fun _ out w' => (call d.rows [] out w').running) ↔
        (call c.rows [] [] w).fault ≠ none ∨ linesRead w c.rows = [] ∨
          (linesRead w c.rows = [.list []] ∧ (call c.rows [] [] w).world.Blank)) := by
  refine ⟨fun d => c.running_sequence_linesRead d w, ?_⟩
  cases hf : (call c.rows [] [] w).fault with
  | some e =>
      simp only [Invocation.running_sequence, Outcome.andThen_of_fault hf]
      simp
  | none =>
      simp only [Invocation.running_sequence_linesRead, Outcome.andThen_of_none hf]
      have hone := linesRead_cases (fault_takeInput hf)
      rw [Invocation.unaffected_iff hone]
      simp

/-- After `cat < f`, a `cat` that is given nothing gives out the lines of `f` once more. -/
theorem sequence_isolated_iff_cat :
    ∃ c d : Invocation,
      c.rows = [[.text "cat".toList], [.text ['<'], .text "f".toList]] ∧
      d.rows = [[.text "cat".toList]] ∧
      (run .sequence (c.rows ++ d.rows) [] [] World.odd).running.1 =
        [.text ['-', '\n'], .text [Text.singleQuote, '\n'],
          .text ['-', '\n'], .text [Text.singleQuote, '\n']] ∧
      ¬ ∀ d : Invocation, (run .sequence (c.rows ++ d.rows) [] [] World.odd).running =
        (call c.rows [] [] World.odd).andThen fun _ out w' => (call d.rows [] out w').running := by
  refine ⟨⟨"cat".toList, by decide, [], [(.input, [.text "f".toList])]⟩,
    ⟨"cat".toList, by decide, [], []⟩, rfl, rfl, ?_, ?_⟩
  · rw [(sequence_isolated_iff _ World.odd).1]
    decide +kernel
  · rw [(sequence_isolated_iff _ World.odd).2]
    rintro (hfails | hnone | ⟨hempty, -⟩)
    · exact hfails (by decide +kernel)
    · exact absurd hnone (by decide +kernel)
    · exact absurd hempty (by decide +kernel)

end Command

end CommandShell
