import CommandShell.Line

/-! # Rows of calls

What a call takes from its rows and from the input it is given, and how rows that hold several
calls are run one after another. -/

namespace CommandShell

/-- What is seen of a run of an application: the output, the world and the fault. -/
def Effect.running (e : Effect) : Running := (e.added, e.world, e.fault)

namespace Command

/-! ## Rows that decode to calls -/

/-- A row that belongs to the call before it. -/
def Continues : Row → Prop
  | [] => False
  | word :: _ => namesApplication word = false

/-- The rows of one call: a row that names an application, and rows that do not. -/
def IsBlock : List Row → Prop
  | (word :: _) :: rest => namesApplication word = true ∧ ∀ row ∈ rest, Continues row
  | _ => False

theorem decodeAfter_continues {rows : List Row} (h : ∀ row ∈ rows, Continues row)
    (current more : List Row) :
    decodeAfter current (rows ++ more) = decodeAfter (current ++ rows) more := by
  induction rows generalizing current with
  | nil => simp
  | cons row rows ih =>
      cases row with
      | nil => exact absurd (h [] (by simp)) id
      | cons word words =>
          have hword : namesApplication word = false := h (word :: words) (by simp)
          rw [List.cons_append, decodeAfter, if_neg (by simp [hword]),
            ih (fun r hr => h r (by simp [hr])), List.append_assoc, List.singleton_append]

theorem decodeAfter_blocks {blocks : List (List Row)} (h : ∀ b ∈ blocks, IsBlock b)
    (current : List Row) : decodeAfter current blocks.flatten = ⟨current :: blocks, none⟩ := by
  induction blocks generalizing current with
  | nil => rfl
  | cons b blocks ih =>
      have hb : IsBlock b := h b (by simp)
      match b, hb with
      | (word :: words) :: rest, hb =>
          rw [List.flatten_cons, List.cons_append, decodeAfter, if_pos hb.1,
            decodeAfter_continues hb.2, ih (fun b hb => h b (by simp [hb])),
            List.singleton_append]

/-- Decoding gives back the calls whose rows are put one after another. -/
theorem decode_blocks {b : List Row} {blocks : List (List Row)} (hb : IsBlock b)
    (h : ∀ b ∈ blocks, IsBlock b) : decode (b ++ blocks.flatten) = ⟨b :: blocks, none⟩ := by
  match b, hb with
  | (word :: words) :: rest, hb =>
      rw [List.cons_append, decode, decodeAfter_continues hb.2, decodeAfter_blocks h,
        List.singleton_append]

/-! ## What is seen of a run -/

/-- The output, the world and the fault. -/
def Outcome.running (r : Outcome) : Running := (r.out, r.world, r.fault)

/-- Go on with what a run has left, unless it has failed. -/
def Outcome.andThen (r : Outcome) (next : List Value → List Value → World → Running) : Running :=
  match r.fault with
  | some e => (r.out, r.world, some e)
  | none => next r.input r.out r.world

theorem Outcome.andThen_of_fault {r : Outcome} {e : Fault} (h : r.fault = some e)
    (next : List Value → List Value → World → Running) : r.andThen next = r.running := by
  simp only [andThen, running, h]

theorem Outcome.andThen_of_none {r : Outcome} (h : r.fault = none)
    (next : List Value → List Value → World → Running) :
    r.andThen next = next r.input r.out r.world := by
  simp only [andThen, h]

theorem Outcome.andThen_of_failed {r : Outcome} {out : List Value} {w : World} {e : Fault}
    (h : r.running = (out, w, some e)) (next : List Value → List Value → World → Running) :
    r.andThen next = (out, w, some e) := by
  rw [andThen_of_fault (congrArg (fun s => s.2.2) h), h]

theorem Outcome.andThen_of_done {r : Outcome} {out : List Value} {w : World}
    (h : r.running = (out, w, none)) (next : List Value → List Value → World → Running) :
    r.andThen next = next r.input out w := by
  obtain ⟨rfl, rfl, hfault⟩ : r.out = out ∧ r.world = w ∧ r.fault = none := by
    simpa only [running, Prod.mk.injEq] using h
  rw [andThen_of_none hfault]

theorem running_runSequence_cons (c : List Row) (cs : List (List Row)) (input out : List Value)
    (w : World) :
    (runSequence (c :: cs) input out w).running =
      (call c input out w).andThen fun input out w => (runSequence cs input out w).running := by
  cases hf : (call c input out w).fault with
  | some e =>
      rw [Outcome.andThen_of_fault hf]
      simp only [runSequence, hf, Outcome.running]
  | none =>
      rw [Outcome.andThen_of_none hf]
      simp only [runSequence, hf, Outcome.running]

theorem running_runSequence_singleton (c : List Row) (input out : List Value) (w : World) :
    (runSequence [c] input out w).running = (call c input out w).running := by
  rw [running_runSequence_cons]
  cases hf : (call c input out w).fault with
  | some e => rw [Outcome.andThen_of_fault hf]
  | none =>
      rw [Outcome.andThen_of_none hf]
      simp only [runSequence, Outcome.running, hf]

theorem andThen_runSequence_cons (c : List Row) (cs : List (List Row)) (input out : List Value)
    (w : World) (next : List Value → List Value → World → Running) :
    (runSequence (c :: cs) input out w).andThen next =
      (call c input out w).andThen fun input out w => (runSequence cs input out w).andThen next := by
  cases hf : (call c input out w).fault with
  | some e =>
      rw [Outcome.andThen_of_fault hf]
      simp only [runSequence, hf, Outcome.andThen, Outcome.running]
  | none =>
      rw [Outcome.andThen_of_none hf]
      simp only [runSequence, hf, Outcome.andThen]

/-- Calls are run after other calls with what those have left. -/
theorem running_runSequence_append (cs ds : List (List Row)) (input out : List Value) (w : World) :
    (runSequence (cs ++ ds) input out w).running =
      (runSequence cs input out w).andThen fun input out w =>
        (runSequence ds input out w).running := by
  induction cs generalizing input out w with
  | nil => rfl
  | cons c cs ih =>
      rw [List.cons_append, running_runSequence_cons, andThen_runSequence_cons]
      simp only [ih]

theorem running_run_sequence {b : List Row} {blocks : List (List Row)} (hb : IsBlock b)
    (h : ∀ b ∈ blocks, IsBlock b) (input out : List Value) (w : World) :
    (run .sequence (b ++ blocks.flatten) input out w).running =
      (runSequence (b :: blocks) input out w).running := by
  simp only [run, decode_blocks hb h, withLeft]

/-! ## Input -/

/-- The lines that a row takes from a file. -/
def linesOf? (w : World) : Row → Option Value
  | [sign, file] => if sign.isText ['<'] then (w.openFile file).toOption.map .list else none
  | _ => none

/-- The lines that the rows of a call take from files. -/
def linesRead (w : World) (rows : List Row) : List Value := rows.filterMap (linesOf? w)

theorem linesRead_cons_of_not {w : World} {word : Value} (h : word.isText ['<'] = false)
    (words : List Value) (rows : List Row) :
    linesRead w ((word :: words) :: rows) = linesRead w rows := by
  have hnone : linesOf? w (word :: words) = none := by
    match words with
    | [] => rfl
    | [file] => simp [linesOf?, h]
    | _ :: _ :: _ => rfl
  rw [linesRead, List.filterMap_cons_none hnone]
  rfl

theorem linesRead_cons_of_open {w : World} {word file : Value} {lines : List Value}
    (h : word.isText ['<'] = true) (ho : w.openFile file = .ok lines) (rows : List Row) :
    linesRead w ([word, file] :: rows) = .list lines :: linesRead w rows := by
  have hsome : linesOf? w [word, file] = some (.list lines) := by
    simp [linesOf?, h, ho, Except.toOption]
  rw [linesRead, List.filterMap_cons_some hsome]
  rfl

/-- What is given stands before what is read. -/
theorem takeInputFrom_given (w : World) (given : List Value) (rows : List Row) (i : Nat)
    (taken : Option Nat) (input : List Value) :
    takeInputFrom w i taken (given ++ input) rows =
      { takeInputFrom w i taken input rows with
        input := given ++ (takeInputFrom w i taken input rows).input } := by
  fun_induction takeInputFrom w i taken input rows <;>
    simp_all [takeInputFrom, ← List.append_assoc]

/-- Without a fault, what is read is what the rows take from files. -/
theorem input_takeInputFrom {w : World} {rows : List Row} {i : Nat} {taken : Option Nat}
    {input : List Value} (h : (takeInputFrom w i taken input rows).fault = none) :
    (takeInputFrom w i taken input rows).input = input ++ linesRead w rows := by
  fun_induction takeInputFrom w i taken input rows with
  | case1 => simp [linesRead]
  | case2 => cases h
  | case3 => cases h
  | case4 i input word rest hword file lines hopen ih =>
      rw [ih h, linesRead_cons_of_open hword hopen, List.append_assoc, List.singleton_append]
  | case5 => cases h
  | case6 i taken input word words rest hword ih =>
      rw [ih h, linesRead_cons_of_not (by simpa using hword)]

/-- After one file no other is read. -/
theorem linesRead_of_taken {w : World} {rows : List Row} {i j : Nat} {input : List Value}
    (h : (takeInputFrom w i (some j) input rows).fault = none) : linesRead w rows = [] := by
  generalize hj : some j = taken at h
  fun_induction takeInputFrom w i taken input rows with
  | case1 => rfl
  | case2 => cases h
  | case3 => cases h
  | case4 => cases hj
  | case5 => cases h
  | case6 i taken input word words rest hword ih =>
      rw [linesRead_cons_of_not (by simpa using hword)]
      exact ih hj h

/-- At most one file is read. -/
theorem linesRead_cases {w : World} {rows : List Row} {i : Nat} {input : List Value}
    (h : (takeInputFrom w i none input rows).fault = none) :
    linesRead w rows = [] ∨ ∃ lines, linesRead w rows = [.list lines] := by
  generalize hn : none = taken at h
  fun_induction takeInputFrom w i taken input rows with
  | case1 => exact Or.inl rfl
  | case2 => cases h
  | case3 => cases h
  | case4 i input word rest hword file lines hopen ih =>
      rw [linesRead_cons_of_open hword hopen, linesRead_of_taken h]
      exact Or.inr ⟨lines, rfl⟩
  | case5 => cases h
  | case6 i taken input word words rest hword ih =>
      rw [linesRead_cons_of_not (by simpa using hword)]
      exact ih hn h

/-! ## Calls and their input -/

/-- The intake of a call that has been given something. -/
theorem takeInput_given (w : World) (rows : List Row) (given : List Value) :
    takeInput w rows given =
      { takeInput w rows [] with input := given ++ (takeInput w rows []).input } := by
  have h := takeInputFrom_given w given rows 0 none []
  rwa [List.append_nil] at h

/-- What a call does once its input has been taken and the row used for it is out of the way. -/
def afterIntake (rows : List Row) (input out : List Value) (w : World) : Running :=
  match (expandRows w rows).2 with
  | some e => (out, w, some e)
  | none =>
      let effect := runRow ((expandRows w rows).1.headD []) input w
      match effect.fault with
      | some e => (out ++ effect.added, effect.world, some e)
      | none => redirect (expandRows w rows).1 (out ++ effect.added) effect.world

theorem running_call_of_fault {rows : List Row} {w : World} {e : Fault}
    (h : (takeInput w rows []).fault = some e) (input out : List Value) :
    (call rows input out w).running = (out, w, some e) := by
  simp only [call, takeInput_given w rows input, h, Outcome.running]

theorem running_call {rows : List Row} {w : World} (h : (takeInput w rows []).fault = none)
    (input out : List Value) :
    (call rows input out w).running =
      afterIntake (remaining rows (takeInput w rows []).taken) (input ++ linesRead w rows) out w := by
  have hinput : (takeInput w rows []).input = linesRead w rows := input_takeInputFrom h
  simp only [call, takeInput_given w rows input, h, hinput, afterIntake]
  generalize expandRows w (remaining rows (takeInput w rows []).taken) = expanded
  cases expanded.2 with
  | some e => rfl
  | none =>
      generalize runRow (expanded.1.headD []) (input ++ linesRead w rows) w = effect
      cases effect.fault with
      | some e => rfl
      | none => rfl

/-- A call that does not fail has taken its input. -/
theorem fault_takeInput {rows : List Row} {input out : List Value} {w : World}
    (h : (call rows input out w).fault = none) : (takeInput w rows []).fault = none := by
  cases hf : (takeInput w rows []).fault with
  | some e => simp [call, takeInput_given w rows input, hf] at h
  | none => rfl

theorem input_call {rows : List Row} {w : World} {input out : List Value}
    (h : (call rows input out w).fault = none) :
    (call rows input out w).input = input ++ linesRead w rows := by
  have hf := fault_takeInput h
  have hinput : (takeInput w rows []).input = linesRead w rows := input_takeInputFrom hf
  simp only [call, takeInput_given w rows input, hf, hinput]
  split
  · rfl
  · split <;> rfl

/-- All that a call sees of its input are the arguments that it makes of it. -/
theorem running_call_congr {rows : List Row} {given given' : List Value} {w : World}
    (h : (takeInput w rows []).fault = none → ∀ words,
      callArguments words (given ++ linesRead w rows) =
        callArguments words (given' ++ linesRead w rows)) (out : List Value) :
    (call rows given out w).running = (call rows given' out w).running := by
  cases hf : (takeInput w rows []).fault with
  | some e => rw [running_call_of_fault hf, running_call_of_fault hf]
  | none =>
      have hrow : ∀ row, runRow row (given ++ linesRead w rows) w =
          runRow row (given' ++ linesRead w rows) w := by
        intro row
        cases row with
        | nil => rfl
        | cons word words => simp only [runRow, h hf words]
      rw [running_call hf, running_call hf]
      simp only [afterIntake, hrow]

/-! ## Calls that read nothing -/

/-- Rows of which none starts with `<`. -/
def ReadsNothing (rows : List Row) : Prop :=
  ∀ row ∈ rows, ∃ word words, row = word :: words ∧ word.isText ['<'] = false

theorem takeInputFrom_of_readsNothing {rows : List Row} (h : ReadsNothing rows) (w : World)
    (i : Nat) (taken : Option Nat) (input : List Value) :
    takeInputFrom w i taken input rows = ⟨input, taken, none⟩ := by
  induction rows generalizing i with
  | nil => rfl
  | cons row rows ih =>
      obtain ⟨word, words, rfl, hword⟩ := h row (by simp)
      simp only [takeInputFrom, hword, Bool.false_eq_true, if_false]
      exact ih (fun r hr => h r (by simp [hr])) (i + 1)

namespace ReadsNothing

variable {rows : List Row}

theorem takeInput_eq (h : ReadsNothing rows) (w : World) :
    takeInput w rows [] = ⟨[], none, none⟩ := takeInputFrom_of_readsNothing h w 0 none []

theorem linesRead_eq (h : ReadsNothing rows) (w : World) : linesRead w rows = [] := by
  have hintake := h.takeInput_eq w
  have hread := input_takeInputFrom (congrArg Intake.fault hintake)
  rw [← takeInput, hintake, List.nil_append] at hread
  exact hread.symm

theorem running_call_eq (h : ReadsNothing rows) (input out : List Value) (w : World) :
    (call rows input out w).running = afterIntake rows input out w := by
  have hfault : (takeInput w rows []).fault = none := congrArg Intake.fault (h.takeInput_eq w)
  rw [running_call hfault, h.takeInput_eq, h.linesRead_eq, List.append_nil]
  rfl

end ReadsNothing

/-- A row in which no word stands for names of files is run as it is. -/
theorem running_call_kept {row : Row} {w : World} (hr : ReadsNothing [row])
    (he : expandRow w row = (row, none)) (input : List Value) :
    (call [row] input [] w).running = (runRow row input w).running := by
  rw [hr.running_call_eq]
  simp only [afterIntake, expandRows, he, List.headD_cons, List.nil_append, Effect.running]
  cases hf : (runRow row input w).fault with
  | some e => rfl
  | none => rfl

/-- Calls that read no files leave the input as it is. -/
theorem input_runSequence {cs : List (List Row)} (hc : ∀ c ∈ cs, ReadsNothing c)
    {input out : List Value} {w : World} (h : (runSequence cs input out w).fault = none) :
    (runSequence cs input out w).input = input := by
  induction cs generalizing input out w with
  | nil => rfl
  | cons c cs ih =>
      cases hf : (call c input out w).fault with
      | some e => simp [runSequence, hf] at h
      | none =>
          have hinput : (call c input out w).input = input := by
            rw [input_call hf, (hc c (by simp)).linesRead_eq, List.append_nil]
          simp only [runSequence, hf] at h ⊢
          rw [ih (fun d hd => hc d (by simp [hd])) h, hinput]

/-! ## Output -/

/-- The same with something given out before. -/
def prefixed (before : List Value) (r : Running) : Running := (before ++ r.1, r.2)

theorem afterIntake_prefixed (row : Row) (input before out : List Value) (w : World) :
    afterIntake [row] input (before ++ out) w = prefixed before (afterIntake [row] input out w) := by
  simp only [afterIntake, expandRows]
  cases (expandRow w row).2 with
  | some e => rfl
  | none =>
      simp only [List.headD_cons]
      cases (runRow (expandRow w row).1 input w).fault with
      | some e => simp [prefixed]
      | none => simp [redirect, prefixed]

/-- A row of words alone, which reads no file and redirects no output. -/
structure IsPlainCall (c : List Row) : Prop where
  single : ∃ row, c = [row]
  reads : ReadsNothing c

theorem running_call_prefixed {c : List Row} (h : IsPlainCall c) (input before out : List Value)
    (w : World) :
    (call c input (before ++ out) w).running = prefixed before (call c input out w).running := by
  rw [h.reads.running_call_eq, h.reads.running_call_eq]
  obtain ⟨row, rfl⟩ := h.single
  exact afterIntake_prefixed row input before out w

/-- Calls without redirections give out behind what has been given out before. -/
theorem running_runSequence_prefixed {cs : List (List Row)} (h : ∀ c ∈ cs, IsPlainCall c)
    (input before out : List Value) (w : World) :
    (runSequence cs input (before ++ out) w).running =
      prefixed before (runSequence cs input out w).running := by
  induction cs generalizing input out w with
  | nil => rfl
  | cons c cs ih =>
      have hcall := running_call_prefixed (h c (by simp)) input before out w
      have hout : (call c input (before ++ out) w).out = before ++ (call c input out w).out :=
        congrArg Prod.fst hcall
      have hworld : (call c input (before ++ out) w).world = (call c input out w).world :=
        congrArg (fun r => r.2.1) hcall
      have hfault : (call c input (before ++ out) w).fault = (call c input out w).fault :=
        congrArg (fun r => r.2.2) hcall
      rw [running_runSequence_cons, running_runSequence_cons]
      cases hf : (call c input out w).fault with
      | some e =>
          rw [Outcome.andThen_of_fault (hfault.trans hf), Outcome.andThen_of_fault hf, hcall]
      | none =>
          rw [Outcome.andThen_of_none (hfault.trans hf), Outcome.andThen_of_none hf,
            input_call (hfault.trans hf), input_call hf, hout, hworld]
          exact ih (fun d hd => h d (by simp [hd])) _ _ _

/-- Output that has been written to a file is given out no more. -/
theorem out_redirect {row words : Row} {sign : Value} {rows : List Row} {out out' : List Value}
    {w w' : World} (hs : (sign.isText ['>'] || sign.isText ['>', '>']) = true)
    (h : redirect (row :: (sign :: words) :: rows) out w = (out', w', none)) : out' = [] := by
  match words with
  | [] =>
      simp only [redirect, hs, if_true] at h
      cases h
  | _ :: _ :: _ =>
      simp only [redirect, hs, if_true] at h
      cases h
  | [file] =>
      simp only [redirect, hs, if_true, writeOutput] at h
      cases htext : outputText out with
      | error e => simp [htext] at h
      | ok t =>
          cases hwrite : w.writeText file.shown (sign.isText ['>', '>']) t with
          | error e => simp [htext, hwrite] at h
          | ok v =>
              simp only [htext, hwrite, Prod.mk.injEq] at h
              exact h.1.symm

/-- A call whose output is redirected gives nothing out, whatever has been given out before. -/
theorem out_call_redirected {row words : Row} {sign : Value} {rows : List Row}
    (hr : ReadsNothing (row :: (sign :: words) :: rows))
    (hs : (sign.isText ['>'] || sign.isText ['>', '>']) = true) {input out out' : List Value}
    {w w' : World}
    (h : (call (row :: (sign :: words) :: rows) input out w).running = (out', w', none)) :
    out' = [] := by
  rw [hr.running_call_eq] at h
  simp only [afterIntake, expandRows, List.headD_cons] at h
  cases hexpand : (expandRow w row).2 with
  | some e => simp [hexpand] at h
  | none =>
      cases hrun : (runRow (expandRow w row).1 input w).fault with
      | some e => simp [hexpand, hrun] at h
      | none =>
          simp only [hexpand, hrun] at h
          exact out_redirect hs h

end Command

end CommandShell
