import CommandShell.Proofs.Isolation

/-! # Failures that are only printed

A call whose application has an underscore before its name prints the failure of its application
and goes on. It does so for failures of the run alone: input that cannot be read, words that cannot
be expanded and arguments that the application does not take end it as they end the call without
the underscore. -/

namespace CommandShell

/-! ## Applications print nothing -/

namespace World

theorem printed_makeFolder (w : World) (path : Text) :
    (w.makeFolder path).1.printed = w.printed := by
  unfold makeFolder
  split
  · rfl
  · split <;> rfl

theorem printed_makeFolders (fuel : Nat) (path : Text) (w : World) :
    (makeFolders fuel path w).1.printed = w.printed := by
  induction fuel generalizing path w with
  | zero => rfl
  | succ fuel ih =>
      unfold makeFolders
      generalize (if (Path.lastName path).isEmpty then Path.parent path else path) = short
      have habove := ih (Path.parent short) w
      dsimp only
      split
      · split
        · next w' _ hmade =>
            rw [hmade] at habove
            split
            · exact habove
            · exact (printed_makeFolder w' path).trans habove
        · next w' hmade =>
            rw [hmade] at habove
            split
            · exact habove
            · exact (printed_makeFolder w' path).trans habove
        · next w' e _ hmade =>
            rw [hmade] at habove
            exact habove
      · exact printed_makeFolder w path

theorem printed_writeText {w w' : World} {path t : Text} {append : Bool}
    (h : w.writeText path append t = .ok w') : w'.printed = w.printed := by
  unfold writeText at h
  split at h
  · cases h
  · split at h
    · cases h
    · split at h <;> (cases h; rfl)

end World

namespace Application

theorem printed_makeOne (v : Value) (w : World) : (makeOne v w).1.printed = w.printed := by
  unfold makeOne
  split
  · rfl
  · dsimp only
    split
    · rfl
    · exact World.printed_makeFolders _ _ w

theorem printed_removeOne (v : Value) (w : World) : (removeOne v w).1.printed = w.printed := by
  unfold removeOne
  split
  · rfl
  · dsimp only
    split
    · split <;> rfl
    · rfl

theorem printed_withNames {f : Value → World → World × Option Fault}
    (h : ∀ v w, (f v w).1.printed = w.printed) (args : List Value) (w : World) :
    (withNames f args w).world.printed = w.printed := by
  have hall : ∀ (vs : List Value) (w : World), (forEach f vs w).1.printed = w.printed := by
    intro vs w
    induction vs generalizing w with
    | nil => rfl
    | cons v vs ih =>
        have hv := h v w
        unfold forEach
        split
        · next w' e hf =>
            rw [hf] at hv
            exact hv
        · next w' hf =>
            rw [hf] at hv
            exact (ih w').trans hv
  unfold withNames
  split
  · rfl
  · split
    · rfl
    · exact hall _ w

theorem printed_runCd (args : List Value) (w : World) :
    (runCd args w).world.printed = w.printed := by
  unfold runCd
  repeat' split
  all_goals rfl

theorem printed_exec (a : Application) (args : List Value) (w : World) :
    (a.exec args w).world.printed = w.printed := by
  have hsame : ∀ {e : Effect}, e.world = w → e.world.printed = w.printed := congrArg World.printed
  cases a with
  | cat => rfl
  | cd => exact printed_runCd args w
  | cut => exact hsame (world_runCut args w)
  | echo => rfl
  | find => exact hsame (world_runFind args w)
  | grep => exact hsame (world_runGrep args w)
  | head => exact hsame (world_runHead args w)
  | ls => exact hsame (world_runLs args w)
  | mkdir => exact printed_withNames printed_makeOne args w
  | pwd => rfl
  | rm => exact printed_withNames printed_removeOne args w
  | sort => exact hsame (world_runSort args w)
  | tail => exact hsame (world_runTail args w)
  | uniq => exact hsame (world_runUniq args w)
  | wc => exact hsame (world_runWc args w)

end Application

theorem Effect.guarded_of_none {effect : Effect} (h : effect.fault = none) :
    effect.guarded = effect := by
  simp only [guarded, h]

namespace Command

theorem printed_writeOutput (w : World) (file : Value) (append : Bool) (out : List Value) :
    (writeOutput w file append out).2.1.printed = w.printed := by
  unfold writeOutput
  split
  · rfl
  · split
    · rfl
    · split
      · rfl
      · next hwrite => exact World.printed_writeText hwrite

theorem printed_redirect (rows : List Row) (out : List Value) (w : World) :
    (redirect rows out w).2.1.printed = w.printed := by
  unfold redirect
  split
  · split
    · split
      · rfl
      · exact printed_writeOutput _ _ _ _
      · rfl
    · rfl
  · rfl

/-! ## Calls by the name of their application -/

theorem takeInputFrom_succ (w : World) (rows : List Row) (i : Nat) (taken : Option Nat)
    (input : List Value) :
    takeInputFrom w (i + 1) (taken.map (· + 1)) input rows =
      { takeInputFrom w i taken input rows with
        taken := (takeInputFrom w i taken input rows).taken.map (· + 1) } := by
  fun_induction takeInputFrom w i taken input rows <;> simp_all [takeInputFrom]

/-- A row that is no redirection of input is passed over. -/
theorem takeInput_cons {word : Value} (h : word.isText ['<'] = false) (words : List Value)
    (rows : List Row) (w : World) :
    takeInput w ((word :: words) :: rows) [] =
      { takeInput w rows [] with taken := (takeInput w rows []).taken.map (· + 1) } := by
  simp only [takeInput, takeInputFrom, h, Bool.false_eq_true, if_false]
  exact takeInputFrom_succ w rows 0 none []

theorem remaining_cons (row : Row) (rows : List Row) (taken : Option Nat) :
    remaining (row :: rows) (taken.map (· + 1)) = row :: remaining rows taken := by
  cases taken <;> rfl

/-- A word before others that is not expanded itself. -/
theorem expandFrom_cons (w : World) (n i : Nat) (v : Value) (row : Row) :
    expandFrom w n (i + 1) (v :: row) =
      (v :: (expandFrom w n i row).1, (expandFrom w n i row).2) := by
  induction n generalizing i row with
  | zero => rfl
  | succ n ih =>
      rw [expandFrom, expandFrom, List.getElem?_cons_succ]
      cases hi : row[i]? with
      | none => rfl
      | some word =>
          dsimp only
          by_cases hstar : word.has '*' = true
          · rw [if_pos hstar, if_pos hstar]
            cases word with
            | list xs => rfl
            | text t =>
                dsimp only
                cases w.expand t with
                | error e => rfl
                | ok paths =>
                    cases paths with
                    | nil => exact ih (i + 1) row
                    | cons path paths => exact ih (i + 1) _
          · rw [if_neg hstar, if_neg hstar]
            exact ih (i + 1) row

theorem expandRow_cons {v : Value} (h : v.has '*' = false) (row : Row) (w : World) :
    expandRow w (v :: row) = (v :: (expandRow w row).1, (expandRow w row).2) := by
  rw [expandRow, List.length_cons, expandFrom]
  simp only [List.getElem?_cons_zero, h, Bool.false_eq_true, if_false]
  exact expandFrom_cons w row.length 0 v row

theorem redirect_cons (row row' : Row) (rest : List Row) (out : List Value) (w : World) :
    redirect (row :: rest) out w = redirect (row' :: rest) out w := by
  rcases rest with _ | ⟨_ | ⟨word, words⟩, rest⟩
  · rfl
  · rfl
  · rfl

/-- The arguments that a call has for its application, and the rows that are left for its
output. -/
def prepare (words : List Value) (more : List Row) (input : List Value) (w : World) :
    Except Fault (List Value × List Row) :=
  match (takeInput w more []).fault with
  | some e => .error e
  | none =>
      match (expandRow w words).2 with
      | some e => .error e
      | none =>
          .ok (callArguments (expandRow w words).1 (input ++ linesRead w more),
            remaining more (takeInput w more []).taken)

/-- What is done with the effect of an application. -/
def conclude (rest : List Row) (out : List Value) (effect : Effect) : Running :=
  match effect.fault with
  | some e => (out ++ effect.added, effect.world, some e)
  | none => redirect ([] :: rest) (out ++ effect.added) effect.world

/-- What a call of an application does. -/
def perform (a : Application) (guarded : Bool) (words : List Value) (more : List Row)
    (input out : List Value) (w : World) : Running :=
  match prepare words more input w with
  | .error e => (out, w, some e)
  | .ok (given, rest) =>
      match a.arguments given with
      | .error e => (out, w, some e)
      | .ok args =>
          conclude rest out (if guarded then (a.exec args w).guarded else a.exec args w)

theorem running_named {n : Text} {a : Application} {guarded : Bool}
    (h : application (.text n) = .ok (a, guarded)) (words : List Value) (more : List Row)
    (input out : List Value) (w : World) :
    (call ((.text n :: words) :: more) input out w).running =
      perform a guarded words more input out w := by
  have hname : Application.isName n = true :=
    Application.isName_iff.mpr ⟨a, eq_name_of_application h⟩
  have hsign : (Value.text n).isText ['<'] = false := by
    rw [Value.isText, decide_eq_false_iff_not]
    rintro rfl
    exact absurd hname (by decide)
  have hstar : (Value.text n).has '*' = false := by
    simpa [Value.has] using noStar_of_isName hname
  have htake := takeInput_cons hsign words more w
  unfold perform prepare
  cases hfault : (takeInput w more []).fault with
  | some e => rw [running_call_of_fault (by rw [htake, hfault])]
  | none =>
      rw [running_call (by rw [htake, hfault]), linesRead_cons_of_not hsign, htake, remaining_cons]
      simp only [afterIntake, expandRows, expandRow_cons hstar, List.headD_cons]
      cases (expandRow w words).2 with
      | some e => rfl
      | none =>
          simp only [runRow, h]
          cases a.arguments (callArguments (expandRow w words).1 (input ++ linesRead w more)) with
          | error e => simp [Effect.failed]
          | ok args =>
              simp only [conclude]
              cases (if guarded then (a.exec args w).guarded else a.exec args w).fault with
              | some e => rfl
              | none => exact redirect_cons _ [] _ _ _

theorem application_name (a : Application) : application (.text a.name) = .ok (a, false) := by
  cases a <;> decide

theorem application_guarded (a : Application) :
    application (.text ('_' :: a.name)) = .ok (a, true) := by
  cases a <;> decide

/-! ## With and without the underscore -/

/-- Redirections as rows. -/
def redirectionRows (redirections : List (Operator × List Value)) : List Row :=
  redirections.map fun r => .text r.1.text :: r.2

/-- Redirections of which none is of output. -/
def OnlyInput (redirections : List (Operator × List Value)) : Prop :=
  ∀ r ∈ redirections, r.1 = .input

theorem redirect_of_onlyInput {redirections : List (Operator × List Value)}
    (h : OnlyInput redirections) {rest : List Row} (hr : rest ⊆ redirectionRows redirections)
    (out : List Value) (w : World) : redirect ([] :: rest) out w = (out, w, none) := by
  cases rest with
  | nil => rfl
  | cons row rest =>
      obtain ⟨⟨operator, file⟩, hmem, rfl⟩ := List.mem_map.mp (hr List.mem_cons_self)
      obtain rfl : operator = .input := h _ hmem
      rfl

namespace Invocation

/-- An application that is called by its name. -/
def plain (a : Application) (words : List Value) (redirections : List (Operator × List Value)) :
    Invocation :=
  ⟨a.name, Application.isName_iff.mpr ⟨a, .inl rfl⟩, words, redirections⟩

/-- An application that is called by its name after an underscore. -/
def guarded (a : Application) (words : List Value) (redirections : List (Operator × List Value)) :
    Invocation :=
  ⟨'_' :: a.name, Application.isName_iff.mpr ⟨a, .inr rfl⟩, words, redirections⟩

end Invocation

section Guarded

variable (a : Application) (words : List Value) (redirections : List (Operator × List Value))
  (input out : List Value) (w : World)

/-- A call comes to the run of its application with arguments, and has rows left for its output. -/
def Comes (args : List Value) (rest : List Row) : Prop :=
  ∃ given, prepare words (redirectionRows redirections) input w = .ok (given, rest) ∧
    a.arguments given = .ok args

/-- A call is stopped before the run of its application: its input cannot be read, a word cannot be
expanded, or the application does not take what it is given. -/
def Stopped (e : Fault) : Prop :=
  prepare words (redirectionRows redirections) input w = .error e ∨
    ∃ given rest, prepare words (redirectionRows redirections) input w = .ok (given, rest) ∧
      a.arguments given = .error e

theorem running_plain : (call (Invocation.plain a words redirections).rows input out w).running =
    perform a false words (redirectionRows redirections) input out w :=
  running_named (application_name a) words _ input out w

theorem running_guarded :
    (call (Invocation.guarded a words redirections).rows input out w).running =
      perform a true words (redirectionRows redirections) input out w :=
  running_named (application_guarded a) words _ input out w

variable {a words redirections input w}

theorem comes_or_stopped (a : Application) (words : List Value)
    (redirections : List (Operator × List Value)) (input : List Value) (w : World) :
    (∃ args rest, Comes a words redirections input w args rest) ∨
      ∃ e, Stopped a words redirections input w e := by
  cases hp : prepare words (redirectionRows redirections) input w with
  | error e => exact .inr ⟨e, .inl hp⟩
  | ok p =>
      obtain ⟨given, rest⟩ := p
      cases ha : a.arguments given with
      | error e => exact .inr ⟨e, .inr ⟨given, rest, hp, ha⟩⟩
      | ok args => exact .inl ⟨args, rest, given, hp, ha⟩

theorem Comes.perform_eq {args : List Value} {rest : List Row}
    (h : Comes a words redirections input w args rest) (guarded : Bool) :
    perform a guarded words (redirectionRows redirections) input out w =
      conclude rest out (if guarded then (a.exec args w).guarded else a.exec args w) := by
  obtain ⟨given, hp, ha⟩ := h
  simp only [perform, hp, ha]

theorem Comes.subset {args : List Value} {rest : List Row}
    (h : Comes a words redirections input w args rest) : rest ⊆ redirectionRows redirections := by
  obtain ⟨given, hp, -⟩ := h
  unfold prepare at hp
  split at hp
  · cases hp
  · split at hp
    · cases hp
    · obtain ⟨-, rfl⟩ := Prod.mk.inj (Except.ok.inj hp)
      exact remaining_subset _ _

theorem Stopped.perform_eq {e : Fault} (h : Stopped a words redirections input w e)
    (guarded : Bool) :
    perform a guarded words (redirectionRows redirections) input out w = (out, w, some e) := by
  rcases h with hp | ⟨given, rest, hp, ha⟩
  · simp only [perform, hp]
  · simp only [perform, hp, ha]

theorem conclude_of_fault {effect : Effect} {e : Fault} (h : effect.fault = some e)
    (rest : List Row) (out : List Value) :
    conclude rest out effect = (out ++ effect.added, effect.world, some e) := by
  simp only [conclude, h]

theorem conclude_guarded {effect : Effect} {e : Fault} (h : effect.fault = some e)
    (rest : List Row) (out : List Value) :
    conclude rest out effect.guarded =
      redirect ([] :: rest) (out ++ effect.added) (effect.world.print (e.message ++ ['\n'])) := by
  simp only [conclude, Effect.guarded, h]

theorem printed_conclude {effect : Effect} (h : effect.world.printed = w.printed)
    (rest : List Row) (out : List Value) : (conclude rest out effect).2.1.printed = w.printed := by
  unfold conclude
  split
  · exact h
  · exact (printed_redirect _ _ _).trans h

/-- A call that does not fail has come to its application, and that has not failed. -/
theorem exists_comes_of_done
    (h : (call (Invocation.plain a words redirections).rows input out w).fault = none) :
    ∃ args rest, Comes a words redirections input w args rest ∧ (a.exec args w).fault = none := by
  have hfault := congrArg (fun r => r.2.2) (running_plain a words redirections input out w)
  rw [Outcome.running] at hfault
  rcases comes_or_stopped a words redirections input w with ⟨args, rest, hcomes⟩ | ⟨e, hstopped⟩
  · refine ⟨args, rest, hcomes, ?_⟩
    cases he : (a.exec args w).fault with
    | none => rfl
    | some e =>
        rw [hcomes.perform_eq, if_neg Bool.false_ne_true, conclude_of_fault he, h] at hfault
        cases hfault
  · rw [hstopped.perform_eq, h] at hfault
    cases hfault

/-- Where no output is redirected, a call with the underscore ends well once it has come to its
application. -/
theorem exists_running_guarded (hinput : OnlyInput redirections) {args : List Value}
    {rest : List Row} (h : Comes a words redirections input w args rest) :
    (call (Invocation.guarded a words redirections).rows input out w).running =
      (out ++ (a.exec args w).added, (a.exec args w).guarded.world, none) := by
  rw [running_guarded, h.perform_eq, if_pos rfl]
  cases he : (a.exec args w).fault with
  | none =>
      rw [Effect.guarded_of_none he]
      simp only [conclude, he, redirect_of_onlyInput hinput h.subset]
  | some e =>
      rw [conclude_guarded he, redirect_of_onlyInput hinput h.subset]
      simp only [Effect.guarded, he]

end Guarded

/-- A call that succeeds does the same with an underscore before its name, and prints nothing. If
its application fails in its run, the call with the underscore prints the message and goes on: its
output is redirected, or a call after it is run. Stopped before the run, by arguments that are not
taken among others, both calls fail in the same way and no call is run after them. So without a
redirection of output the underscore keeps a call from failing exactly if the call comes to the run
of its application. -/
theorem guarded_call_fails_unless_run (a : Application) (words : List Value)
    (redirections : List (Operator × List Value)) (input out : List Value) (w : World) :
    ((call (Invocation.plain a words redirections).rows input out w).fault = none →
      (call (Invocation.guarded a words redirections).rows input out w).running =
          (call (Invocation.plain a words redirections).rows input out w).running ∧
        (call (Invocation.guarded a words redirections).rows input out w).world.printed =
          w.printed) ∧
    (∀ args rest e, Comes a words redirections input w args rest →
      (a.exec args w).fault = some e →
        (call (Invocation.plain a words redirections).rows input out w).running =
            (out ++ (a.exec args w).added, (a.exec args w).world, some e) ∧
          (call (Invocation.guarded a words redirections).rows input out w).running =
            redirect ([] :: rest) (out ++ (a.exec args w).added)
              ((a.exec args w).world.print (e.message ++ ['\n'])) ∧
          (OnlyInput redirections → ∀ d : Invocation,
            (run .sequence ((Invocation.guarded a words redirections).rows ++ d.rows) input out
                w).running =
              (call d.rows
                (input ++ linesRead w (Invocation.guarded a words redirections).rows)
                (out ++ (a.exec args w).added)
                ((a.exec args w).world.print (e.message ++ ['\n']))).running)) ∧
    (∀ e, Stopped a words redirections input w e →
      (call (Invocation.plain a words redirections).rows input out w).running =
          (out, w, some e) ∧
        (call (Invocation.guarded a words redirections).rows input out w).running =
          (out, w, some e) ∧
        ∀ d : Invocation,
          (run .sequence ((Invocation.guarded a words redirections).rows ++ d.rows) input out
            w).running = (out, w, some e)) ∧
    (OnlyInput redirections →
      ((call (Invocation.guarded a words redirections).rows input out w).fault = none ↔
        ∃ args rest, Comes a words redirections input w args rest)) := by
  refine ⟨?_, ?_, ?_, ?_⟩
  · intro hdone
    obtain ⟨args, rest, hcomes, hfault⟩ := exists_comes_of_done out hdone
    have hrunning : (call (Invocation.guarded a words redirections).rows input out w).running =
        conclude rest out (a.exec args w) := by
      rw [running_guarded, hcomes.perform_eq, if_pos rfl, Effect.guarded_of_none hfault]
    refine ⟨?_, ?_⟩
    · rw [hrunning, running_plain, hcomes.perform_eq, if_neg Bool.false_ne_true]
    · have hprinted := printed_conclude (a.printed_exec args w) rest out
      rw [← hrunning] at hprinted
      exact hprinted
  · intro args rest e hcomes hfault
    refine ⟨?_, ?_, ?_⟩
    · rw [running_plain, hcomes.perform_eq, if_neg Bool.false_ne_true, conclude_of_fault hfault]
    · rw [running_guarded, hcomes.perform_eq, if_pos rfl, conclude_guarded hfault]
    · intro hinput d
      have hrunning := exists_running_guarded out hinput hcomes
      have hnone : (call (Invocation.guarded a words redirections).rows input out w).fault = none :=
        congrArg (fun r => r.2.2) hrunning
      rw [Invocation.running_sequence, Outcome.andThen_of_done hrunning, input_call hnone]
      simp only [Effect.guarded, hfault]
  · intro e hstopped
    have hguarded : (call (Invocation.guarded a words redirections).rows input out w).running =
        (out, w, some e) := by rw [running_guarded, hstopped.perform_eq]
    refine ⟨?_, hguarded, ?_⟩
    · rw [running_plain, hstopped.perform_eq]
    · intro d
      rw [Invocation.running_sequence, Outcome.andThen_of_failed hguarded]
  · intro hinput
    constructor
    · intro hnone
      refine (comes_or_stopped a words redirections input w).resolve_right ?_
      rintro ⟨e, hstopped⟩
      have hfault := congrArg (fun r => r.2.2) (running_guarded a words redirections input out w)
      rw [Outcome.running, hstopped.perform_eq, hnone] at hfault
      cases hfault
    · rintro ⟨args, rest, hcomes⟩
      exact congrArg (fun r => r.2.2) (exists_running_guarded out hinput hcomes)

/-- A file that is not there is no failure for `_rm`, and a call after it is run. Without arguments
`_head` fails all the same. -/
theorem guarded_call_fails_unless_run_rm :
    (∀ d : Invocation,
      (run .sequence ((Invocation.guarded .rm [.text "h".toList] []).rows ++ d.rows) [] []
          World.odd).running =
        (call d.rows [] [] (World.odd.print "h is not a valid file path.\n".toList)).running) ∧
      (call (Invocation.guarded .head [] []).rows [] [] World.odd).running =
        ([], World.odd, some .wrongArgumentCount) := by
  have hcomes : Comes .rm [.text "h".toList] [] [] World.odd [.text "h".toList] [] :=
    ⟨[.text "h".toList], rfl, rfl⟩
  have hfault : (Application.rm.exec [.text "h".toList] World.odd).fault =
      some (.notFile "h".toList) := by decide +kernel
  have hstopped : Stopped .head [] [] [] World.odd .wrongArgumentCount :=
    .inr ⟨[], [], rfl, rfl⟩
  obtain ⟨-, -, hnext⟩ := (guarded_call_fails_unless_run .rm _ [] [] [] World.odd).2.1 _ _ _
    hcomes hfault
  obtain ⟨-, hhead, -⟩ := (guarded_call_fails_unless_run .head [] [] [] [] World.odd).2.2.1 _
    hstopped
  exact ⟨fun d => hnext (by simp [OnlyInput]) d, hhead⟩

end Command

end CommandShell
