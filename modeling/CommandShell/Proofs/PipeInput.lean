import CommandShell.Proofs.CallRows
import CommandShell.Proofs.Filters

/-! # What the calls of a pipe are given

Every call of a pipe is given the output of the call before it, the first one nothing. A call looks
at the first part of its input only: where that is empty it is run without input, whatever it reads
from a file. So a filter that starts a pipe never sees the file that is redirected to it, and a
filter after a call that gives nothing out fails for want of lines. -/

namespace CommandShell

namespace Command

/-! ### Pipes -/

theorem running_runPipe_cons (c : List Row) (cs : List (List Row)) (input before : List Value)
    (w : World) :
    (runPipe (c :: cs) input before w).running =
      (call c [.list input] [] w).andThen fun _ out w => (runPipe cs out out w).running := by
  cases hf : (call c [.list input] [] w).fault with
  | some e =>
      rw [Outcome.andThen_of_fault hf]
      simp only [runPipe, hf, Outcome.running]
  | none =>
      rw [Outcome.andThen_of_none hf]
      simp only [runPipe, hf, Outcome.running]

theorem andThen_runPipe_cons (c : List Row) (cs : List (List Row)) (input before : List Value)
    (w : World) (next : List Value → List Value → World → Running) :
    (runPipe (c :: cs) input before w).andThen next =
      (call c [.list input] [] w).andThen fun _ out w => (runPipe cs out out w).andThen next := by
  cases hf : (call c [.list input] [] w).fault with
  | some e =>
      rw [Outcome.andThen_of_fault hf]
      simp only [runPipe, hf, Outcome.andThen, Outcome.running]
  | none =>
      rw [Outcome.andThen_of_none hf]
      simp only [runPipe, hf, Outcome.andThen]

/-- The calls at the end of a pipe go on with what those at its start have given out. -/
theorem running_runPipe_append (cs ds : List (List Row)) (input before : List Value) (w : World) :
    (runPipe (cs ++ ds) input before w).running =
      (runPipe cs input before w).andThen fun input out w => (runPipe ds input out w).running := by
  induction cs generalizing input before w with
  | nil => rfl
  | cons c cs ih =>
      rw [List.cons_append, running_runPipe_cons, andThen_runPipe_cons]
      simp only [ih]

/-- What is given out last is the input of a call that would follow. -/
theorem input_runPipe (cs : List (List Row)) (input : List Value) (w : World)
    (h : (runPipe cs input input w).fault = none) :
    (runPipe cs input input w).input = (runPipe cs input input w).out := by
  induction cs generalizing input w with
  | nil => rfl
  | cons c cs ih =>
      cases hf : (call c [.list input] [] w).fault with
      | some e => simp [runPipe, hf] at h
      | none =>
          simp only [runPipe, hf] at h ⊢
          exact ih _ _ h

theorem running_run_pipe {b : List Row} {blocks : List (List Row)} (hb : IsBlock b)
    (h : ∀ b ∈ blocks, IsBlock b) (input out : List Value) (w : World) :
    (run .pipe (b ++ blocks.flatten) input out w).running =
      (runPipe (b :: blocks) input out w).running := by
  simp only [run, decode_blocks hb h, withLeft]
  rfl

theorem running_runPipe_last (c : List Row) (input before : List Value) (w : World) :
    (runPipe [c] input before w).running = (call c [.list input] [] w).running := by
  rw [running_runPipe_cons]
  cases hf : (call c [.list input] [] w).fault with
  | some e => exact Outcome.andThen_of_fault hf _
  | none =>
      rw [Outcome.andThen_of_none hf]
      simp only [runPipe, Outcome.running, hf]

/-- A pipe of two calls that redirect nothing. -/
theorem running_run_pair {row next : Row} (hr : IsBlock [row]) (hn : IsBlock [next])
    (out : List Value) (w : World) :
    (run .pipe [row, next] [] out w).running =
      (call [row] [.list []] [] w).andThen fun _ out w =>
        (call [next] [.list out] [] w).running := by
  refine (running_run_pipe hr (List.forall_mem_singleton.mpr hn) [] out w).trans ?_
  rw [running_runPipe_cons]
  simp only [running_runPipe_last]

/-! ### A call that is given nothing -/

section Rows

variable {row : Row} {w : World} {f : Text} {lines : List Value}

theorem takeInput_file (hr : ReadsNothing [row]) (ho : w.openFile (.text f) = .ok lines) :
    takeInput w [row, [.text ['<'], .text f]] [] = ⟨[.list lines], some 1, none⟩ := by
  obtain ⟨word, words, rfl, hword⟩ := hr row (by simp)
  have hless : (Value.text ['<']).isText ['<'] = true := rfl
  simp only [takeInput, takeInputFrom, hword, hless, ho, Bool.false_eq_true, if_false, if_true,
    List.nil_append]

/-- Behind an empty first part of its input, a call does not see the file that it reads. -/
theorem running_call_unseen (hr : ReadsNothing [row]) (ho : w.openFile (.text f) = .ok lines) :
    (call [row, [.text ['<'], .text f]] [.list []] [] w).running =
      (call [row] [.list []] [] w).running := by
  have hintake := takeInput_file hr ho
  have hread : linesRead w [row, [.text ['<'], .text f]] = [.list lines] := by
    have hinput := input_takeInputFrom (congrArg Intake.fault hintake)
    rw [← takeInput, hintake] at hinput
    exact hinput.symm
  have hargs : ∀ r, runRow r ([.list []] ++ [.list lines]) w = runRow r [.list []] w := by
    intro r
    cases r <;> rfl
  rw [running_call (congrArg Intake.fault hintake), hintake, hread, hr.running_call_eq]
  simp only [afterIntake, remaining, List.eraseIdx, hargs]

theorem running_call_unreadable {e : Fault} (hr : ReadsNothing [row])
    (ho : w.openFile (.text f) = .error e) (input : List Value) :
    (call [row, [.text ['<'], .text f]] input [] w).running = ([], w, some e) := by
  obtain ⟨word, words, rfl, hword⟩ := hr row (by simp)
  have hless : (Value.text ['<']).isText ['<'] = true := rfl
  apply running_call_of_fault
  simp only [takeInput, takeInputFrom, hword, hless, ho, Bool.false_eq_true, if_false, if_true]

end Rows

end Command

/-! ### Filters that are given nothing -/

namespace LineFilter

/-- Why a filter fails that is given no lines. -/
def unfed : LineFilter → Fault
  | .sort true | .uniq true => .listIndex
  | _ => .wrongArgumentCount

/-- Words that come to the options of a filter once their quotes are gone, and of which none stands
for names of files. -/
structure SpelledBy (a : LineFilter) (w : World) (words : List Value) : Prop where
  kept : Command.expandRow w (.text a.application.name :: words) =
    (.text a.application.name :: words, none)
  unquoted : words.map Command.unquote = a.options.map .text

theorem spelledBy_options {a : LineFilter} (h : ∀ t ∈ a.options, PlainWord t) (w : World) :
    a.SpelledBy w (a.options.map .text) where
  kept := Command.expandRow_of_plain (Command.star_words h) w
  unquoted := Command.unquote_options h

section Unfed

variable {a : LineFilter} {w : World} {words : List Value}

theorem readsNothing_name (a : LineFilter) (words : List Value) :
    Command.ReadsNothing [.text a.application.name :: words] := by
  intro row hrow
  refine ⟨_, _, List.mem_singleton.mp hrow, ?_⟩
  cases a <;> rfl

theorem isBlock_name (a : LineFilter) (words : List Value) :
    Command.IsBlock [.text a.application.name :: words] := by
  refine ⟨?_, by simp⟩
  cases a <;> rfl

/-- With its options alone a filter fails, whether it counts its arguments or looks for the first
of them. -/
theorem runRow_unfed (ha : a ≠ .cat) (h : words.map Command.unquote = a.options.map .text) :
    Command.runRow (.text a.application.name :: words) [.list []] w =
      .failed [] w a.unfed := by
  have hname : Command.application (.text a.application.name) = .ok (a.application, false) := by
    cases a <;> rfl
  have hargs : Command.callArguments words [.list []] = a.options.map .text := h
  simp only [Command.runRow, hname, hargs]
  cases a with
  | cat => exact absurd rfl ha
  | head count | tail count => cases count <;> rfl
  | sort option | uniq option => cases option <;> rfl
  | _ => rfl

theorem running_call_unfed (ha : a ≠ .cat) (h : a.SpelledBy w words) :
    (Command.call [.text a.application.name :: words] [.list []] [] w).running =
      ([], w, some a.unfed) := by
  rw [Command.running_call_kept (a.readsNothing_name words) h.kept, runRow_unfed ha h.unquoted]
  rfl

/-- A pipe ends with a filter whose predecessor gives nothing out. -/
theorem running_runPipe_unfed {before rest : List (List Row)} {v : World} (ha : a ≠ .cat)
    (h : a.SpelledBy v words) (hb : (Command.runPipe before [] [] w).running = ([], v, none)) :
    (Command.runPipe (before ++ [.text a.application.name :: words] :: rest) [] [] w).running =
      ([], v, some a.unfed) := by
  have hinput : (Command.runPipe before [] [] w).input = [] :=
    (Command.input_runPipe before [] w (congrArg (fun r => r.2.2) hb)).trans (congrArg Prod.fst hb)
  rw [Command.running_runPipe_append, Command.Outcome.andThen_of_done hb, hinput,
    Command.running_runPipe_cons, Command.Outcome.andThen_of_failed (running_call_unfed ha h)]

end Unfed

/-- On an empty file a filter fails only if its options are refused. -/
theorem fault_exec_empty {a : LineFilter} (ha : ∀ ignoreCase, a ≠ .uniq ignoreCase) {w : World}
    {f : Text} (hf : FileName f) (h : w.readLines f = .ok []) :
    (a.application.exec (a.arguments (.text f)) w).fault = a.refusal := by
  have hopen : w.openFile (.text f) = .ok [] := World.openFile_of_ok h
  have hsource := hf.source hopen
  cases a with
  | uniq ignoreCase => exact absurd rfl (ha ignoreCase)
  | head count =>
      simp only [application, Application.exec, Application.runHead, arguments, options,
        Application.selection_source hsource, refusal]
      cases Application.countOf count <;> rfl
  | tail count =>
      simp only [application, Application.exec, Application.runTail, arguments, options,
        Application.selection_source hsource, refusal]
      cases Application.countOf count <;> rfl
  | sort reverse =>
      rw [application, Application.exec, Application.runSort_source hsource]
      cases reverse <;> rfl
  | cut positions =>
      simp only [application, Application.exec, Application.runCut_source hsource, refusal]
      cases Application.Cutting.read (Value.text positions).members <;> rfl
  | grep pattern =>
      have hflag : Application.refuseFlag .noFlags [.text pattern, .text f] =
          Application.refuseFlag .noFlags [.text pattern] := rfl
      have hfound : Application.foundIn w (.text pattern) false (.text f) = ⟨[], none⟩ := by
        simp [Application.foundIn, hopen, Yield.each]
      simp only [application, Application.exec, arguments, options, List.map_cons, List.map_nil,
        List.cons_append, List.nil_append, Application.runGrep, hflag, refusal]
      cases Application.refuseFlag .noFlags [.text pattern] with
      | error e => rfl
      | ok _ =>
          simp [Application.sourceItems, Yield.each_singleton, hfound, Effect.ofYield,
            Fault.ofExcept]
  | wc =>
      simp [application, Application.exec, arguments, options, Application.runWc,
        hsource.accepted, Application.sourceItems, Yield.each_singleton, hopen,
        Effect.ofYield, refusal, Application.counted, Application.counts, Application.wordCount]
  | cat =>
      simp [application, Application.exec, arguments, options, Application.runCat,
        Yield.each_singleton, hopen, Yield.ofExcept, Effect.ofYield, refusal]

/-- Options are refused for other reasons than that there are no lines. -/
theorem refusal_ne_unfed {a : LineFilter} (ha : a.application ≠ .cut) :
    a.refusal ≠ some a.unfed := by
  cases a with
  | cut positions => exact absurd rfl ha
  | head count | tail count =>
      cases count with
      | none => simp [refusal, Application.countOf, Fault.ofExcept]
      | some n =>
          simp only [refusal, Application.countOf, Value.integer?]
          cases Text.integer? n <;> simp [Fault.ofExcept, unfed]
  | grep pattern =>
      cases pattern with
      | nil => simp [refusal, Application.refuseFlag, Application.firstArgument, Value.first?,
          Fault.ofExcept, unfed]
      | cons c cs =>
          simp only [refusal, Application.refuseFlag, Application.firstArgument, Value.first?]
          split <;> simp [Fault.ofExcept, unfed]
  | sort | uniq | wc | cat => exact (Option.some_ne_none _).symm

/-! ### Filters behind `cat` -/

section Fed

variable {a : LineFilter} {w : World} {words : List Value} {f : Text}

/-- What `cat` gives out at the start of a pipe. -/
theorem running_call_cat (hf : PlainWord f) (w : World) :
    (Command.call [[.text "cat".toList, .text f]] [.list []] [] w).running =
      ((Yield.ofExcept (w.openFile (.text f))).items, w,
        (Yield.ofExcept (w.openFile (.text f))).fault) := by
  have hstar : ∀ v ∈ [Value.text "cat".toList, .text f], v.has '*' = false := by
    intro v hv
    rcases List.mem_cons.mp hv with rfl | hv
    · rfl
    · rw [List.mem_singleton.mp hv]
      simpa [Value.has] using hf.star
  have hargs : Command.callArguments [.text f] [.list []] = [.text f] := by
    simp [Command.callArguments, Value.size, Command.unquote_text hf]
  have hrun : Command.runRow [.text "cat".toList, .text f] [.list []] w =
      .ofYield [.text f] w (Yield.ofExcept (w.openFile (.text f))) := by
    have hcat : Application.runCat [.text f] w =
        .ofYield [.text f] w (Yield.ofExcept (w.openFile (.text f))) := by
      rw [Application.runCat, Yield.each_singleton]
    exact (congrArg (fun args => Application.runCat args w) hargs).trans hcat
  have hreads : Command.ReadsNothing [[.text "cat".toList, .text f]] :=
    LineFilter.cat.readsNothing_name [.text f]
  rw [Command.running_call_kept hreads (Command.expandRow_of_plain hstar w), hrun]
  rfl

/-- The lines of which a filter is told: with a lone quote among them, the first and the last are
lost. -/
def heard (lines : List Text) : List Text :=
  if [Text.singleQuote] ∈ lines ∨ [Text.doubleQuote] ∈ lines then (lines.drop 1).dropLast else lines

/-- No line is nothing but a quote. -/
def Unquoted (lines : List Text) : Prop :=
  [Text.singleQuote] ∉ lines ∧ [Text.doubleQuote] ∉ lines

theorem heard_of_unquoted {lines : List Text} (h : Unquoted lines) : heard lines = lines :=
  if_neg (not_or.mpr h)

theorem unquote_lines (lines : List Text) :
    Command.unquote (.list (lines.map .text)) = .list ((heard lines).map .text) := by
  have hhas : ∀ c, (Value.list (lines.map .text)).has c = true ↔ [c] ∈ lines := by
    intro c
    simp [Value.has, Value.isText]
  have htext : (Value.list (lines.map .text)).isText [Text.singleQuote, Text.singleQuote] =
      false := rfl
  simp only [Command.unquote, htext, Bool.not_false, Bool.and_true, Bool.or_eq_true, hhas, heard]
  split
  · rw [Value.inner, List.map_dropLast, List.map_drop]
  · rfl

/-- The lines of a file are given to the filter that follows. -/
theorem runRow_fed (h : a.SpelledBy w words) {lines : List Text} (hl : lines ≠ []) :
    Command.runRow (.text a.application.name :: words) [.list (lines.map .text)] w =
      a.on (heard lines) w := by
  have hsize : (Value.list (lines.map .text)).size ≠ 0 := by
    simpa [Value.size] using hl
  have hargs : Command.callArguments words [.list (lines.map .text)] =
      a.arguments (.list ((heard lines).map .text)) := by
    simp only [Command.callArguments, if_neg hsize, List.map_append, h.unquoted, List.map_cons,
      List.map_nil, unquote_lines]
    rfl
  exact Command.runRow_named hargs

theorem running_call_fed (h : a.SpelledBy w words) {lines : List Text} (hl : lines ≠ []) :
    (Command.call [.text a.application.name :: words] [.list (lines.map .text)] [] w).running =
      ((a.on (heard lines) w).added, w, (a.on (heard lines) w).fault) := by
  rw [Command.running_call_kept (a.readsNothing_name words) h.kept, runRow_fed h hl]
  have hworld : (a.on (heard lines) w).world = w := a.world_exec _ w
  rw [Effect.running, hworld]

end Fed

/-! ### Pipes that start with a file -/

/-- The rows of a pipe that starts with a filter to which a file is redirected. -/
def redirectedPipe (a : LineFilter) (words : List Value) (f : Text) (stages : List Row) :
    List Row :=
  (.text a.application.name :: words) :: [.text ['<'], .text f] :: stages

/-- The rows of a pipe in which the filter is given the file by `cat`. -/
def fedPipe (a : LineFilter) (words : List Value) (f : Text) (stages : List Row) : List Row :=
  [.text "cat".toList, .text f] :: (.text a.application.name :: words) :: stages

section Stages

variable {a : LineFilter} {w : World} {words : List Value} {f : Text} {stages : List Row}

theorem isBlock_stages (h : ∀ row ∈ stages, Command.IsBlock [row]) :
    ∀ b ∈ stages.map ([·]), Command.IsBlock b := List.forall_mem_map.mpr h

theorem flatten_stages (stages : List Row) : (stages.map ([·])).flatten = stages := by
  induction stages with
  | nil => rfl
  | cons row stages ih => rw [List.map_cons, List.flatten_cons, ih, List.singleton_append]

theorem running_redirectedPipe (h : ∀ row ∈ stages, Command.IsBlock [row]) :
    (Command.run .pipe (a.redirectedPipe words f stages) [] [] w).running =
      (Command.runPipe ([.text a.application.name :: words, [.text ['<'], .text f]] ::
        stages.map ([·])) [] [] w).running := by
  have hblock : Command.IsBlock [.text a.application.name :: words, [.text ['<'], .text f]] := by
    refine ⟨(a.isBlock_name words).1, ?_⟩
    intro row hrow
    rw [List.mem_singleton.mp hrow]
    rfl
  have hrun := Command.running_run_pipe hblock (isBlock_stages h) [] [] w
  rw [flatten_stages] at hrun
  exact hrun

theorem running_fedPipe (h : ∀ row ∈ stages, Command.IsBlock [row]) :
    (Command.run .pipe (a.fedPipe words f stages) [] [] w).running =
      (Command.runPipe ([[.text "cat".toList, .text f]] ::
        [.text a.application.name :: words] :: stages.map ([·])) [] [] w).running := by
  have hblocks : ∀ b ∈ [.text a.application.name :: words] :: stages.map ([·]),
      Command.IsBlock b := by
    intro b hb
    rcases List.mem_cons.mp hb with rfl | hb
    · exact a.isBlock_name words
    · exact isBlock_stages h b hb
  have hrun := Command.running_run_pipe (LineFilter.cat.isBlock_name [.text f]) hblocks [] [] w
  rw [List.flatten_cons, flatten_stages] at hrun
  exact hrun

/-- A filter that starts a pipe is not given the lines of the file that is redirected to it. -/
theorem running_redirectedPipe_unfed (ha : a ≠ .cat) (hs : a.SpelledBy w words)
    (h : ∀ row ∈ stages, Command.IsBlock [row]) :
    (Command.run .pipe (a.redirectedPipe words f stages) [] [] w).running =
      ([], w, some ((Fault.ofExcept (w.readLines f)).getD a.unfed)) := by
  have hreads := a.readsNothing_name words
  have hcall : (Command.call [.text a.application.name :: words, [.text ['<'], .text f]]
      [.list []] [] w).running =
        ([], w, some ((Fault.ofExcept (w.readLines f)).getD a.unfed)) := by
    cases hread : w.readLines f with
    | error e =>
        exact Command.running_call_unreadable hreads (World.openFile_of_error hread) _
    | ok lines =>
        -- The empty input that starts a pipe stands before the lines and hides them.
        rw [Command.running_call_unseen hreads (World.openFile_of_ok hread)]
        exact running_call_unfed ha hs
  rw [running_redirectedPipe h, Command.running_runPipe_cons,
    Command.Outcome.andThen_of_failed hcall]

theorem running_fedPipe_unreadable {e : Fault} (hf : PlainWord f)
    (h : ∀ row ∈ stages, Command.IsBlock [row]) (hread : w.readLines f = .error e) :
    (Command.run .pipe (a.fedPipe words f stages) [] [] w).running = ([], w, some e) := by
  have hcall := running_call_cat hf w
  rw [World.openFile, hread] at hcall
  rw [running_fedPipe h, Command.running_runPipe_cons]
  exact Command.Outcome.andThen_of_failed hcall _

/-- Behind `cat`, the filter is given the lines of the file. -/
theorem running_fedPipe_readable {lines : List Text} (hf : PlainWord f)
    (h : ∀ row ∈ stages, Command.IsBlock [row]) (hread : w.readLines f = .ok lines) :
    (Command.run .pipe (a.fedPipe words f stages) [] [] w).running =
      (Command.call [.text a.application.name :: words] [.list (lines.map .text)] [] w).andThen
        fun _ out w => (Command.runPipe (stages.map ([·])) out out w).running := by
  have hcall := running_call_cat hf w
  rw [World.openFile, hread] at hcall
  calc (Command.run .pipe (a.fedPipe words f stages) [] [] w).running
      = (Command.runPipe ([.text a.application.name :: words] :: stages.map ([·]))
          (lines.map .text) (lines.map .text) w).running := by
        rw [running_fedPipe h, Command.running_runPipe_cons]
        exact Command.Outcome.andThen_of_done hcall _
    _ = _ := Command.running_runPipe_cons _ _ _ _ _

theorem running_fedPipe_empty (ha : a ≠ .cat) (hs : a.SpelledBy w words) (hf : PlainWord f)
    (h : ∀ row ∈ stages, Command.IsBlock [row]) (hread : w.readLines f = .ok []) :
    (Command.run .pipe (a.fedPipe words f stages) [] [] w).running = ([], w, some a.unfed) := by
  rw [running_fedPipe_readable hf h hread, List.map_nil,
    Command.Outcome.andThen_of_failed (running_call_unfed ha hs)]

theorem running_fedPipe_lines {lines : List Text} (hs : a.SpelledBy w words) (hf : PlainWord f)
    (h : ∀ row ∈ stages, Command.IsBlock [row]) (hread : w.readLines f = .ok lines)
    (hl : lines ≠ []) :
    (Command.run .pipe (a.fedPipe words f stages) [] [] w).running =
      (a.on (heard lines) w).fault.elim
        (Command.runPipe (stages.map ([·])) (a.on (heard lines) w).added
          (a.on (heard lines) w).added w).running
        fun e => ((a.on (heard lines) w).added, w, some e) := by
  have hcall := running_call_fed hs hl
  rw [running_fedPipe_readable hf h hread]
  cases hfault : (a.on (heard lines) w).fault with
  | some e =>
      rw [hfault] at hcall
      exact Command.Outcome.andThen_of_failed hcall _
  | none =>
      rw [hfault] at hcall
      exact Command.Outcome.andThen_of_done hcall _

end Stages

end LineFilter

/-- A pipe that starts with a filter to which a file is redirected always fails: either the file
cannot be read, or the filter is not given its lines. With `cat` before it, the filter fails in the
same way if the file cannot be read or is empty, and works on its lines otherwise. Further on in a
pipe too the filter fails if the call before it gives nothing out, which is not how it ends on an
empty file. -/
theorem pipe_start_unfed (a : LineFilter)
    (ha : a.application ∈ [.head, .tail, .sort, .grep, .wc]) {w : World} {words : List Value}
    (h : a.SpelledBy w words) {f : Text} (hf : PlainWord f) {stages : List Row}
    (hs : ∀ row ∈ stages, Command.IsBlock [row]) :
    (Command.run .pipe (a.redirectedPipe words f stages) [] [] w).running =
        ([], w, some ((Fault.ofExcept (w.readLines f)).getD a.unfed)) ∧
      (∀ e, w.readLines f = .error e →
        (Command.run .pipe (a.fedPipe words f stages) [] [] w).running = ([], w, some e)) ∧
      (w.readLines f = .ok [] →
        (Command.run .pipe (a.fedPipe words f stages) [] [] w).running =
          ([], w, some a.unfed)) ∧
      (∀ lines, w.readLines f = .ok lines → lines ≠ [] →
        (Command.run .pipe (a.fedPipe words f stages) [] [] w).running =
          (a.on (LineFilter.heard lines) w).fault.elim
            (Command.runPipe (stages.map ([·])) (a.on (LineFilter.heard lines) w).added
              (a.on (LineFilter.heard lines) w).added w).running
            fun e => ((a.on (LineFilter.heard lines) w).added, w, some e)) ∧
      (∀ before rest v, (Command.runPipe before [] [] w).running = ([], v, none) →
        a.SpelledBy v words →
        (Command.runPipe (before ++ [.text a.application.name :: words] :: rest) [] []
          w).running = ([], v, some a.unfed)) ∧
      ∀ g, FileName g → w.readLines g = .ok [] →
        (a.application.exec (a.arguments (.text g)) w).fault ≠ some a.unfed := by
  have hcat : a ≠ .cat := by
    rintro rfl
    exact absurd ha (by decide)
  have huniq : ∀ ignoreCase, a ≠ .uniq ignoreCase := by
    rintro ignoreCase rfl
    simp [LineFilter.application] at ha
  have hcut : a.application ≠ .cut := by
    intro hcut
    rw [hcut] at ha
    exact absurd ha (by decide)
  refine ⟨LineFilter.running_redirectedPipe_unfed hcat h hs,
    fun e => LineFilter.running_fedPipe_unreadable hf hs,
    LineFilter.running_fedPipe_empty hcat h hf hs,
    fun lines => LineFilter.running_fedPipe_lines h hf hs,
    fun before rest v hb hv => LineFilter.running_runPipe_unfed hcat hv hb, ?_⟩
  intro g hg hread
  rw [LineFilter.fault_exec_empty huniq hg hread]
  exact LineFilter.refusal_ne_unfed hcut

/-- A file with two lines and an empty one. -/
def World.halfEmpty : World :=
  { World.odd with root := .folder [
      ("f".toList, .file (.text ['b', '\n', 'a', '\n'])), ("g".toList, .file (.text []))] }

/-- Sorting before counting: the lines come through `cat` but not through a redirection, and a
search that finds nothing makes the sorting fail, though an empty file can be sorted. -/
theorem pipe_start_unfed_sort :
    (Command.run .pipe ((LineFilter.sort false).redirectedPipe [] "f".toList
        [[.text "wc".toList]]) [] [] World.halfEmpty).running =
        ([], World.halfEmpty, some .wrongArgumentCount) ∧
      (Command.run .pipe ((LineFilter.sort false).fedPipe [] "f".toList
        [[.text "wc".toList]]) [] [] World.halfEmpty).running =
        ([.text "2:2:4".toList], World.halfEmpty, none) ∧
      (Command.run .pipe ((LineFilter.sort false).fedPipe [] "g".toList
        [[.text "wc".toList]]) [] [] World.halfEmpty).running =
        ([], World.halfEmpty, some .wrongArgumentCount) ∧
      (Command.runPipe [[[.text "grep".toList, .text ['x'], .text "f".toList]],
        [[.text "sort".toList]], [[.text "wc".toList]]] [] [] World.halfEmpty).running =
        ([], World.halfEmpty, some .wrongArgumentCount) ∧
      (Application.sort.exec [.text "g".toList] World.halfEmpty).fault ≠
        some .wrongArgumentCount := by
  have hspelled : (LineFilter.sort false).SpelledBy World.halfEmpty [] :=
    LineFilter.spelledBy_options (by simp [LineFilter.options]) _
  have hf : PlainWord "f".toList := ⟨by decide, by decide, by decide, by decide⟩
  have hg : FileName "g".toList := ⟨⟨by decide, by decide, by decide, by decide⟩, by decide⟩
  have hs : ∀ row ∈ [[Value.text "wc".toList]], Command.IsBlock [row] := by
    intro row hrow
    rw [List.mem_singleton.mp hrow]
    exact ⟨by decide, by simp⟩
  obtain ⟨hredirected, -, -, hfed, hsilent, hempty⟩ :=
    pipe_start_unfed (.sort false) (by decide) hspelled hf hs
  obtain ⟨-, -, hnothing, -⟩ :=
    pipe_start_unfed (.sort false) (by decide) hspelled hg.plain hs
  refine ⟨?_, ?_, hnothing (by decide +kernel), ?_, hempty _ hg (by decide +kernel)⟩
  · exact hredirected
  · exact (hfed [['b', '\n'], ['a', '\n']] (by decide +kernel) (by simp)).trans
      (Prod.ext (by decide +kernel) (Prod.ext rfl (by decide +kernel)))
  · exact hsilent [[[.text "grep".toList, .text ['x'], .text "f".toList]]] _ _
      (Prod.ext (by decide +kernel) (Prod.ext rfl (by decide +kernel))) hspelled

end CommandShell
