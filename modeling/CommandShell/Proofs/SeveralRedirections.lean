import CommandShell.Proofs.GuardedCalls
import CommandShell.Proofs.RedirectedOutput

/-! # Calls with several redirections

A call reads at most one file: with two redirections of input it is refused before anything is done.
Redirections of output are not counted. Only the first of them is looked at, wherever the others
stand, and its file is written when the application is done. -/

namespace CommandShell.Command

abbrev Redirections := List (Operator × List Value)

namespace Redirections

def inputs (rs : Redirections) : Redirections := rs.filter fun r => r.1 = .input

def outputs (rs : Redirections) : Redirections := rs.filter fun r => r.1 ≠ .input

section Parts

variable {r : Operator × List Value} {rs : Redirections}

theorem inputs_cons_of_input (h : r.1 = .input) : inputs (r :: rs) = r :: inputs rs := by
  simp [inputs, h]

theorem inputs_cons_of_ne (h : r.1 ≠ .input) : inputs (r :: rs) = inputs rs := by
  simp [inputs, h]

theorem outputs_cons_of_input (h : r.1 = .input) : outputs (r :: rs) = outputs rs := by
  simp [outputs, h]

theorem outputs_cons_of_ne (h : r.1 ≠ .input) : outputs (r :: rs) = r :: outputs rs := by
  simp [outputs, h]

end Parts

theorem ne_input_of_mem {r : Operator × List Value} {rs : Redirections} (h : r ∈ outputs rs) :
    r.1 ≠ .input := by
  simpa using (List.mem_filter.mp h).2

theorem inputs_idem (rs : Redirections) : inputs (inputs rs) = inputs rs := by
  simp [inputs]

theorem outputs_inputs (rs : Redirections) : outputs (inputs rs) = [] := by
  simp [inputs, outputs]

end Redirections

open Redirections

/-! ### Input -/

/-- Why a redirection of input fails, if it does. -/
def inputFault (w : World) (taken : Bool) : List Value → Option Fault
  | [file] =>
      if taken then some .severalInputs
      else
        match w.openFile file with
        | .error e => some e
        | .ok _ => none
  | _ => some .severalInputs

/-- Why the input of a call cannot be taken, if it cannot. -/
def intakeFault (w : World) (taken : Bool) : Redirections → Option Fault
  | [] => none
  | r :: rs =>
      if r.1 = .input then
        match inputFault w taken r.2 with
        | some e => some e
        | none => intakeFault w true rs
      else intakeFault w taken rs

section Intake

variable {w : World} {r : Operator × List Value} {rs : Redirections} {taken : Option Nat} {e : Fault}

theorem intakeFault_cons_of_fault {b : Bool} (h : r.1 = .input)
    (he : inputFault w b r.2 = some e) : intakeFault w b (r :: rs) = some e := by
  simp only [intakeFault, if_pos h, he]

theorem intakeFault_cons_of_none {b : Bool} (h : r.1 = .input) (hn : inputFault w b r.2 = none) :
    intakeFault w b (r :: rs) = intakeFault w true rs := by
  simp only [intakeFault, if_pos h, hn]

theorem intakeFault_cons_of_ne (h : r.1 ≠ .input) (b : Bool) :
    intakeFault w b (r :: rs) = intakeFault w b rs := if_neg h

theorem of_intakeFault_cons {b : Bool} (hr : r.1 = .input) (h : intakeFault w b (r :: rs) = none) :
    inputFault w b r.2 = none ∧ intakeFault w true rs = none := by
  cases he : inputFault w b r.2 with
  | some e =>
      rw [intakeFault_cons_of_fault hr he] at h
      cases h
  | none => exact ⟨rfl, by rwa [intakeFault_cons_of_none hr he] at h⟩

/-- A redirection of input that does not fail names one file, which can be read. -/
theorem exists_of_inputFault {b : Bool} {files : List Value} (h : inputFault w b files = none) :
    b = false ∧ ∃ file lines, files = [file] ∧ w.openFile file = .ok lines := by
  match files with
  | [] => cases h
  | _ :: _ :: _ => cases h
  | [file] =>
      cases b with
      | true => cases h
      | false =>
          cases ho : w.openFile file with
          | error e => simp [inputFault, ho] at h
          | ok lines => exact ⟨rfl, file, lines, rfl, ho⟩

theorem isText_of_ne {o : Operator} (h : o ≠ .input) :
    (Value.text o.text).isText ['<'] = false := by
  cases o with
  | input => exact absurd rfl h
  | output => rfl
  | appending => rfl

theorem isText_self (t : Text) : (Value.text t).isText t = true := decide_eq_true rfl

theorem redirectionRows_cons (r : Operator × List Value) (rs : Redirections) :
    redirectionRows (r :: rs) = (.text r.1.text :: r.2) :: redirectionRows rs := rfl

theorem redirectionRows_input (h : r.1 = .input) :
    redirectionRows (r :: rs) = (.text ['<'] :: r.2) :: redirectionRows rs := by
  rw [redirectionRows_cons, h]
  rfl

theorem takeInputFrom_of_ne (h : r.1 ≠ .input) (i : Nat) (taken : Option Nat) (input : List Value) :
    takeInputFrom w i taken input (redirectionRows (r :: rs)) =
      takeInputFrom w (i + 1) taken input (redirectionRows rs) := by
  simp only [redirectionRows_cons, takeInputFrom, isText_of_ne h, Bool.false_eq_true, if_false]

theorem takeInputFrom_of_fault {files : List Value} (he : inputFault w taken.isSome files = some e)
    (rows : List Row) (i : Nat) (input : List Value) :
    takeInputFrom w i taken input ((.text ['<'] :: files) :: rows) = ⟨input, none, some e⟩ := by
  match files, taken with
  | [], _ =>
      cases he
      rfl
  | _ :: _ :: _, _ =>
      cases he
      rfl
  | [file], some j =>
      cases he
      rfl
  | [file], none =>
      cases ho : w.openFile file with
      | ok lines => simp [inputFault, ho] at he
      | error e' =>
          obtain rfl : e' = e := by simpa [inputFault, ho] using he
          rw [takeInputFrom, if_pos (isText_self _), ho]

theorem takeInputFrom_of_open {file : Value} {lines : List Value} (ho : w.openFile file = .ok lines)
    (rows : List Row) (i : Nat) (input : List Value) :
    takeInputFrom w i none input ([.text ['<'], file] :: rows) =
      takeInputFrom w (i + 1) (some i) (input ++ [.list lines]) rows := by
  rw [takeInputFrom, if_pos (isText_self _), ho]

theorem fault_takeInputFrom (i : Nat) (taken : Option Nat) (input : List Value) :
    (takeInputFrom w i taken input (redirectionRows rs)).fault =
      intakeFault w taken.isSome rs := by
  induction rs generalizing i taken input with
  | nil => rfl
  | cons r rs ih =>
      by_cases hr : r.1 = .input
      · cases he : inputFault w taken.isSome r.2 with
        | some e =>
            rw [redirectionRows_input hr, takeInputFrom_of_fault he,
              intakeFault_cons_of_fault hr he]
        | none =>
            obtain ⟨hnone, file, lines, hfile, ho⟩ := exists_of_inputFault he
            obtain rfl : taken = none := Option.not_isSome_iff_eq_none.mp (by simp [hnone])
            rw [redirectionRows_input hr, hfile, takeInputFrom_of_open ho,
              intakeFault_cons_of_none hr he, ih]
            rfl
      · rw [takeInputFrom_of_ne hr, intakeFault_cons_of_ne hr, ih]

/-! What is said about input by all redirections is said by those of input. -/

theorem intakeFault_inputs (w : World) (rs : Redirections) (b : Bool) :
    intakeFault w b (inputs rs) = intakeFault w b rs := by
  induction rs generalizing b with
  | nil => rfl
  | cons r rs ih =>
      by_cases hr : r.1 = .input
      · rw [inputs_cons_of_input hr, intakeFault, intakeFault, if_pos hr, if_pos hr, ih]
      · rw [inputs_cons_of_ne hr, intakeFault_cons_of_ne hr, ih]

theorem linesRead_inputs (w : World) (rs : Redirections) :
    linesRead w (redirectionRows (inputs rs)) = linesRead w (redirectionRows rs) := by
  induction rs with
  | nil => rfl
  | cons r rs ih =>
      by_cases hr : r.1 = .input
      · rw [inputs_cons_of_input hr]
        simp only [linesRead, redirectionRows_cons, List.filterMap_cons] at ih ⊢
        rw [ih]
      · rw [inputs_cons_of_ne hr, ih]
        exact (linesRead_cons_of_not (isText_of_ne hr) r.2 _).symm

/-- Behind a file that is read no other can be. -/
theorem inputs_of_taken (h : intakeFault w true rs = none) : inputs rs = [] := by
  induction rs with
  | nil => rfl
  | cons r rs ih =>
      by_cases hr : r.1 = .input
      · cases (exists_of_inputFault (of_intakeFault_cons hr h).1).1
      · rw [intakeFault_cons_of_ne hr] at h
        rw [inputs_cons_of_ne hr, ih h]

theorem length_inputs_le (h : intakeFault w false rs = none) : (inputs rs).length ≤ 1 := by
  induction rs with
  | nil => exact Nat.zero_le 1
  | cons r rs ih =>
      by_cases hr : r.1 = .input
      · rw [inputs_cons_of_input hr, inputs_of_taken (of_intakeFault_cons hr h).2]
        exact Nat.le_refl 1
      · rw [intakeFault_cons_of_ne hr] at h
        rw [inputs_cons_of_ne hr]
        exact ih h

theorem outputs_of_taken (h : intakeFault w true rs = none) : outputs rs = rs := by
  have hno := List.filter_eq_nil_iff.mp (inputs_of_taken h)
  exact List.filter_eq_self.mpr (by simpa using hno)

/-- Two files that can be read are one too many. -/
theorem intakeFault_several (b : Bool) (hlen : 2 ≤ (inputs rs).length + b.toNat)
    (h : ∀ r ∈ inputs rs, ∃ file lines, r.2 = [file] ∧ w.openFile file = .ok lines) :
    intakeFault w b rs = some .severalInputs := by
  induction rs generalizing b with
  | nil => cases b <;> simp [inputs] at hlen
  | cons r rs ih =>
      by_cases hr : r.1 = .input
      · rw [inputs_cons_of_input hr] at h hlen
        obtain ⟨file, lines, hfile, ho⟩ := h r List.mem_cons_self
        cases b with
        | true => simp [intakeFault, hr, hfile, inputFault]
        | false =>
            have hnone : inputFault w false r.2 = none := by simp [inputFault, hfile, ho]
            rw [intakeFault_cons_of_none hr hnone]
            exact ih true (by simpa using hlen) fun r' hr' => h r' (List.mem_cons_of_mem _ hr')
      · rw [inputs_cons_of_ne hr] at h hlen
        rw [intakeFault_cons_of_ne hr]
        exact ih b hlen h

/-- The rows that are left when the input has been taken. -/
theorem remaining_taken (h : intakeFault w false rs = none) :
    remaining (redirectionRows rs) (takeInput w (redirectionRows rs) []).taken =
      redirectionRows (outputs rs) := by
  induction rs with
  | nil => rfl
  | cons r rs ih =>
      by_cases hr : r.1 = .input
      · obtain ⟨hopen, hrest⟩ := of_intakeFault_cons hr h
        obtain ⟨-, file, lines, hfile, ho⟩ := exists_of_inputFault hopen
        have hreads : ReadsNothing (redirectionRows rs) := by
          intro row hrow
          obtain ⟨r', hr', rfl⟩ := List.mem_map.mp hrow
          rw [← outputs_of_taken hrest] at hr'
          exact ⟨_, _, rfl, isText_of_ne (ne_input_of_mem hr')⟩
        rw [redirectionRows_input hr, hfile, takeInput, takeInputFrom_of_open ho,
          takeInputFrom_of_readsNothing hreads, outputs_cons_of_input hr, outputs_of_taken hrest]
        rfl
      · rw [intakeFault_cons_of_ne hr] at h
        rw [outputs_cons_of_ne hr, redirectionRows_cons, redirectionRows_cons,
          takeInput_cons (isText_of_ne hr), remaining_cons, ih h]

end Intake

/-! ### Output -/

/-- The output of a call that has not failed goes where the rows say. -/
def sent (rows : List Row) (r : Running) : Running :=
  match r.2.2 with
  | some _ => r
  | none => redirect ([] :: rows) r.1 r.2.1

theorem sent_of_none {r : Running} (h : r.2.2 = none) (rows : List Row) :
    sent rows r = redirect ([] :: rows) r.1 r.2.1 := by
  simp only [sent, h]

theorem conclude_eq_sent (rest : List Row) (out : List Value) (effect : Effect) :
    conclude rest out effect = sent rest (conclude [] out effect) := by
  cases hf : effect.fault with
  | some e => simp only [conclude, hf, sent]
  | none => simp only [conclude, hf, redirect, sent]

/-- No redirection but the first is looked at. -/
theorem redirect_first (row row' : Row) (rest : List Row) (out : List Value) (w : World) :
    redirect (row :: row' :: rest) out w = redirect [row, row'] out w := by
  cases row' with
  | nil => rfl
  | cons sign words => rfl

/-- What is prepared for a call is settled by its redirections of input, and those of output are
left. -/
theorem prepare_eq_map (words : List Value) (rs : Redirections) (input : List Value) (w : World) :
    prepare words (redirectionRows rs) input w =
      (prepare words (redirectionRows (inputs rs)) input w).map
        fun p => (p.1, redirectionRows (outputs rs)) := by
  have hfault : (takeInput w (redirectionRows (inputs rs)) []).fault =
      (takeInput w (redirectionRows rs) []).fault := by
    rw [takeInput, takeInput, fault_takeInputFrom, fault_takeInputFrom, intakeFault_inputs]
  unfold prepare
  rw [hfault, linesRead_inputs]
  cases hf : (takeInput w (redirectionRows rs) []).fault with
  | some e => rfl
  | none =>
      rw [takeInput, fault_takeInputFrom] at hf
      cases (expandRow w words).2 with
      | some e => rfl
      | none =>
          rw [remaining_taken hf]
          rfl

theorem prepare_inputs_rest {words : List Value} {rs : Redirections} {input : List Value}
    {w : World} {given : List Value} {rest : List Row}
    (h : prepare words (redirectionRows (inputs rs)) input w = .ok (given, rest)) : rest = [] := by
  rw [prepare_eq_map, inputs_idem, outputs_inputs] at h
  cases hp : prepare words (redirectionRows (inputs rs)) input w with
  | error e =>
      rw [hp] at h
      cases h
  | ok p =>
      rw [hp] at h
      cases h
      rfl

theorem perform_eq_sent (a : Application) (guarded : Bool) (words : List Value) (rs : Redirections)
    (input out : List Value) (w : World) :
    perform a guarded words (redirectionRows rs) input out w =
      sent (redirectionRows (outputs rs))
        (perform a guarded words (redirectionRows (inputs rs)) input out w) := by
  unfold perform
  rw [prepare_eq_map]
  cases hp : prepare words (redirectionRows (inputs rs)) input w with
  | error e => rfl
  | ok p =>
      obtain ⟨given, rest⟩ := p
      obtain rfl := prepare_inputs_rest hp
      simp only [Except.map]
      cases a.arguments given with
      | error e => rfl
      | ok args => exact conclude_eq_sent _ _ _

namespace Invocation

/-- A call with other redirections. -/
def redirectedBy (c : Invocation) (rs : Redirections) : Invocation := { c with redirections := rs }

theorem exists_application (c : Invocation) :
    ∃ a guarded, application (.text c.name) = .ok (a, guarded) := by
  obtain ⟨a, ha | ha⟩ := Application.isName_iff.mp c.isName
  · exact ⟨a, false, ha ▸ application_name a⟩
  · exact ⟨a, true, ha ▸ application_guarded a⟩

theorem running_rows (c : Invocation) (input out : List Value) (w : World) :
    (call c.rows input out w).running =
      sent (redirectionRows (outputs c.redirections))
        (call (c.redirectedBy (inputs c.redirections)).rows input out w).running := by
  obtain ⟨a, guarded, happ⟩ := c.exists_application
  exact (running_named happ _ _ input out w).trans
    ((perform_eq_sent a guarded c.words c.redirections input out w).trans
      (congrArg _ (running_named happ _ _ input out w).symm))

end Invocation

/-- What has been given out can be written where a redirection of output says. -/
structure Delivers (r : Operator × List Value) (done : Running) (file : Value)
    (items : List Text) : Prop where
  ends : done.2.2 = none
  gives : done.1 = items.map .text
  names : r.2 = [file]
  writes : done.2.1.CanWrite file.shown

/-- What is then found in the file. -/
def delivered (o : Operator) (w : World) (path : Text) (items : List Text) : Content :=
  if o = .appending then World.extended (w.entryAt path) (asLines items) else .text (asLines items)

theorem exists_of_outputText {out : List Value} {t : Text} (h : outputText out = .ok t) :
    ∃ items : List Text, out = items.map .text := by
  induction out generalizing t with
  | nil => exact ⟨[], rfl⟩
  | cons v out ih =>
      cases v with
      | list xs => cases h
      | text u =>
          cases hrest : outputText out with
          | error e =>
              rw [outputText, hrest] at h
              cases h
          | ok u' =>
              obtain ⟨items, rfl⟩ := ih hrest
              exact ⟨u :: items, rfl⟩

section Sending

variable {r : Operator × List Value} {done : Running}

/-- A redirection of output that names one file is carried out by writing to it. -/
theorem redirect_output {out : List Value} {w : World} {file : Value} (h : r.1 ≠ .input)
    (hfile : r.2 = [file]) :
    redirect ([] :: redirectionRows [r]) out w =
      writeOutput w (.text file.shown) (r.1 = .appending) out := by
  obtain ⟨o, files⟩ := r
  obtain rfl : files = [file] := hfile
  cases o with
  | input => exact absurd rfl h
  | output => rfl
  | appending => rfl

theorem exists_redirect_error {out : List Value} {w : World} (h : r.1 ≠ .input)
    (hfiles : ∀ file, r.2 ≠ [file]) :
    ∃ e, redirect ([] :: redirectionRows [r]) out w = (out, w, some e) := by
  obtain ⟨o, files⟩ := r
  have hsign : o = .output ∨ o = .appending := by
    cases o with
    | input => exact absurd rfl h
    | output => exact .inl rfl
    | appending => exact .inr rfl
  match files with
  | [] => rcases hsign with rfl | rfl <;> exact ⟨.listIndex, rfl⟩
  | [file] => exact absurd rfl (hfiles file)
  | _ :: _ :: _ => rcases hsign with rfl | rfl <;> exact ⟨.severalOutputs, rfl⟩

theorem exists_sent (h : r.1 ≠ .input) {file : Value} {items : List Text}
    (hd : Delivers r done file items) :
    ∃ v, sent (redirectionRows [r]) done = ([], v, none) ∧
      v.entryAt file.shown = .ok (.file (delivered r.1 done.2.1 file.shown items)) := by
  obtain ⟨v, hwrite, hentry⟩ :=
    World.exists_writeText hd.writes (r.1 = .appending) (asLines items)
  refine ⟨v, ?_, ?_⟩
  · rw [sent_of_none hd.ends, redirect_output h hd.names, hd.gives]
    exact writeOutput_ok hwrite
  · rw [hentry, delivered]
    simp only [decide_eq_true_eq]

theorem exists_delivers_or_error (h : r.1 ≠ .input) (done : Running) :
    (∃ file items, Delivers r done file items) ∨
      ∃ e, sent (redirectionRows [r]) done = (done.1, done.2.1, some e) := by
  obtain ⟨out, w, fault⟩ := done
  cases fault with
  | some e => exact .inr ⟨e, rfl⟩
  | none =>
      rw [sent_of_none rfl]
      by_cases hfile : ∃ file, r.2 = [file]
      · obtain ⟨file, hfile⟩ := hfile
        rw [redirect_output h hfile]
        cases ht : outputText out with
        | error e => exact .inr ⟨e, by simp only [writeOutput, ht]⟩
        | ok t =>
            obtain ⟨items, rfl⟩ := exists_of_outputText ht
            by_cases hcan : w.CanWrite file.shown
            · exact .inl ⟨file, items, rfl, rfl, hfile, hcan⟩
            · obtain ⟨e, herror⟩ := World.exists_writeText_error hcan
              exact .inr ⟨e, writeOutput_error (herror _ _)⟩
      · exact .inr (exists_redirect_error h (not_exists.mp hfile))

end Sending

/-! ### Calls -/

section Calls

variable {c : Invocation} {w : World}

theorem running_of_intakeFault {e : Fault} (h : intakeFault w false c.redirections = some e)
    (input out : List Value) : (call c.rows input out w).running = (out, w, some e) := by
  obtain ⟨a, guarded, happ⟩ := c.exists_application
  have hprepare : prepare c.words (redirectionRows c.redirections) input w = .error e := by
    rw [prepare, takeInput, fault_takeInputFrom]
    simp only [Option.isSome_none, h]
  exact (running_named happ _ _ input out w).trans (Stopped.perform_eq out (.inl hprepare) guarded)

theorem exists_intakeFault {rs : Redirections} (h : 2 ≤ (inputs rs).length) (w : World) :
    ∃ e, intakeFault w false rs = some e := by
  cases he : intakeFault w false rs with
  | some e => exact ⟨e, rfl⟩
  | none => exact absurd (length_inputs_le he) (by omega)

/-- A call with redirections of output is sent where the first of them says. -/
theorem running_first {first : Operator × List Value} {more : Redirections}
    (h : outputs c.redirections = first :: more) (input out : List Value) (w : World) :
    (call c.rows input out w).running =
      sent (redirectionRows [first])
        (call (c.redirectedBy (inputs c.redirections)).rows input out w).running := by
  rw [c.running_rows, h]
  unfold sent
  split
  · rfl
  · exact redirect_first _ _ _ _ _

theorem running_sole {first : Operator × List Value} (h : first.1 ≠ .input)
    (input out : List Value) (w : World) :
    (call (c.redirectedBy (inputs c.redirections ++ [first])).rows input out w).running =
      sent (redirectionRows [first])
        (call (c.redirectedBy (inputs c.redirections)).rows input out w).running := by
  have houtputs : outputs (inputs c.redirections ++ [first]) = [first] := by
    simp [outputs, inputs, h]
  have hinputs : inputs (inputs c.redirections ++ [first]) = inputs c.redirections := by
    simp [inputs, h]
  have hrun := (c.redirectedBy (inputs c.redirections ++ [first])).running_rows input out w
  change _ = sent (redirectionRows (outputs (inputs c.redirections ++ [first])))
    (call (c.redirectedBy (inputs (inputs c.redirections ++ [first]))).rows input out w).running
    at hrun
  rw [hrun, houtputs, hinputs]

end Calls

/-- Two redirections of input are refused, and nothing is done. Redirections of output are not
counted: from the second on they are as if they were not there, and nothing is written to their
files. With any number of them a call does what it does with none, and then writes to the file of
the first; it succeeds just when that can be done, and otherwise leaves what the application has
left. -/
theorem only_several_inputs_refused (c : Invocation) (input out : List Value) (w : World) :
    (2 ≤ (inputs c.redirections).length →
      (∃ e, (call c.rows input out w).running = (out, w, some e)) ∧
      ((∀ r ∈ inputs c.redirections, ∃ file lines, r.2 = [file] ∧ w.openFile file = .ok lines) →
        (call c.rows input out w).running = (out, w, some .severalInputs))) ∧
    ∀ first more, outputs c.redirections = first :: more →
      let sole := c.redirectedBy (inputs c.redirections ++ [first])
      let done := (call (c.redirectedBy (inputs c.redirections)).rows input out w).running
      (call c.rows input out w).running = (call sole.rows input out w).running ∧
      ((call c.rows input out w).fault = none ↔ ∃ file items, Delivers first done file items) ∧
      (∀ file items, Delivers first done file items →
        ∃ v, (call c.rows input out w).Shows [] none v ∧
          v.entryAt file.shown = .ok (.file (delivered first.1 done.2.1 file.shown items))) ∧
      ((call c.rows input out w).fault ≠ none → (call c.rows input out w).world = done.2.1) := by
  constructor
  · intro hseveral
    refine ⟨?_, fun hopen => ?_⟩
    · obtain ⟨e, he⟩ := exists_intakeFault hseveral w
      exact ⟨e, running_of_intakeFault he input out⟩
    · exact running_of_intakeFault (intakeFault_several false hseveral hopen) input out
  · intro first more hfirst sole done
    have hout : first.1 ≠ .input := ne_input_of_mem (hfirst ▸ List.mem_cons_self)
    have hrun : (call c.rows input out w).running = sent (redirectionRows [first]) done :=
      running_first hfirst input out w
    have hfault : (call c.rows input out w).fault = (sent (redirectionRows [first]) done).2.2 :=
      congrArg (fun r => r.2.2) hrun
    have hworld : (call c.rows input out w).world = (sent (redirectionRows [first]) done).2.1 :=
      congrArg (fun r => r.2.1) hrun
    refine ⟨hrun.trans (running_sole hout input out w).symm, ⟨?_, ?_⟩, ?_, ?_⟩
    · intro hnone
      rcases exists_delivers_or_error hout done with hd | ⟨e, he⟩
      · exact hd
      · rw [hfault, he] at hnone
        cases hnone
    · rintro ⟨file, items, hd⟩
      obtain ⟨v, hsent, -⟩ := exists_sent hout hd
      rw [hfault, hsent]
    · intro file items hd
      obtain ⟨v, hsent, hentry⟩ := exists_sent hout hd
      exact ⟨v, Outcome.shows_of_running (hrun.trans hsent), hentry⟩
    · intro hsome
      rcases exists_delivers_or_error hout done with ⟨file, items, hd⟩ | ⟨e, he⟩
      · obtain ⟨v, hsent, -⟩ := exists_sent hout hd
        rw [hfault, hsent] at hsome
        exact absurd rfl hsome
      · rw [hworld, he]

/-- Of two files to write to only the first is written, and of two files to read none is read. -/
theorem only_several_inputs_refused_pairs :
    let c : Invocation := ⟨"echo".toList, by decide, [.text "a".toList],
      [(.output, [.text "h".toList]), (.appending, [.text "f".toList])]⟩
    let d : Invocation := ⟨"cat".toList, by decide, [],
      [(.input, [.text "f".toList]), (.output, [.text "h".toList]), (.input, [.text "f".toList])]⟩
    (∃ v, (call c.rows [] [] World.odd).Shows [] none v ∧
      v.entryAt "h".toList = .ok (.file (.text "a \n".toList))) ∧
    (call d.rows [] [] World.odd).running = ([], World.odd, some .severalInputs) := by
  intro c d
  have hdelivers : Delivers (.output, [.text "h".toList])
      (call (c.redirectedBy (inputs c.redirections)).rows [] [] World.odd).running
      (.text "h".toList) ["a ".toList] := ⟨rfl, rfl, rfl, by decide, _, rfl⟩
  have hopen : ∀ r ∈ inputs d.redirections,
      ∃ file lines, r.2 = [file] ∧ World.odd.openFile file = .ok lines := by
    intro r hr
    obtain rfl : r = (.input, [.text "f".toList]) := by
      simpa [d, inputs, List.filter_cons] using hr
    exact ⟨_, _, rfl, rfl⟩
  constructor
  · exact ((only_several_inputs_refused c [] [] World.odd).2 _ _ rfl).2.2.1 _ _ hdelivers
  · exact ((only_several_inputs_refused d [] [] World.odd).1 (by decide)).2 hopen

end CommandShell.Command
