import CommandShell.Proofs.CallRows
import CommandShell.Proofs.FileContents
import CommandShell.Proofs.Filters

/-! # Output that goes to a file

A call whose output is redirected does what it does without the redirection, and then writes its
output to the file: every item on a line of its own, whatever the item ends with. -/

namespace CommandShell.Command

/-- Items as the lines of a file. -/
def asLines (items : List Text) : Text := items.flatMap fun t => t ++ ['\n']

theorem outputText_texts (items : List Text) :
    outputText (items.map .text) = .ok (asLines items) := by
  induction items with
  | nil => rfl
  | cons t items ih =>
      rw [List.map_cons, outputText, ih]
      rfl

/-- The sign of a redirection that writes over a file, or behind what is there. -/
def outputSign (append : Bool) : Text := if append then ['>', '>'] else ['>']

theorem redirect_outputSign (row : Row) (append : Bool) (f : Text) (out : List Value) (w : World) :
    redirect [row, [.text (outputSign append), .text f]] out w =
      writeOutput w (.text f) append out := by
  cases append <;> rfl

section Writing

variable {f : Text} {append : Bool} {items : List Text} {w : World}

theorem writeOutput_ok {w' : World} (h : w.writeText f append (asLines items) = .ok w') :
    writeOutput w (.text f) append (items.map .text) = ([], w', none) := by
  simp only [writeOutput, outputText_texts, h]

theorem writeOutput_error {e : Fault} (h : w.writeText f append (asLines items) = .error e) :
    writeOutput w (.text f) append (items.map .text) = (items.map .text, w, some e) := by
  simp only [writeOutput, outputText_texts, h]

end Writing

section Calls

variable {row : Row} {input : List Value} {w w' : World}

/-- A row that is run without a fault is no redirection. -/
theorem readsNothing_of_fault {out : List Value} (h : (call [row] input out w).fault = none) :
    ReadsNothing [row] := by
  have hintake := fault_takeInput h
  cases row with
  | nil => cases hintake
  | cons word words =>
      have hword : ¬ word.isText ['<'] = true := by
        intro hless
        have hrun := running_call hintake input out
        have htaken : (takeInput w [word :: words] []).taken = some 0 := by
          simp only [takeInput, takeInputFrom, hless, if_true] at hintake ⊢
          split at hintake
          · split at hintake
            · cases hintake
            · rfl
          · cases hintake
        rw [htaken] at hrun
        have hfault := congrArg (fun r => r.2.2) hrun
        rw [Outcome.running] at hfault
        rw [h] at hfault
        cases hfault
      intro r hr
      exact ⟨word, words, List.mem_singleton.mp hr, by simpa using hword⟩

theorem Outcome.Shows.running_eq {o : Outcome} {out : List Value} {fault : Option Fault}
    (h : o.Shows out fault w) : o.running = (out, w, fault) := by
  rw [Outcome.running, h.gives, h.ends, h.leaves]

theorem Outcome.shows_of_running {o : Outcome} {out : List Value} {fault : Option Fault}
    (h : o.running = (out, w, fault)) : o.Shows out fault w := by
  rw [Outcome.running, Prod.mk.injEq, Prod.mk.injEq] at h
  exact ⟨h.1, h.2.2, h.2.1⟩

/-- With a redirection the output of a call is written when the application is done. -/
theorem running_call_redirected {out : List Value} (h : (call [row] input [] w).Shows out none w')
    (append : Bool) (f : Text) :
    (call [row, [.text (outputSign append), .text f]] input [] w).running =
      writeOutput w' (.text f) append out := by
  have hreads := readsNothing_of_fault h.ends
  have hsign : (Value.text (outputSign append)).isText ['<'] = false := by
    cases append <;> rfl
  have hboth : ReadsNothing [row, [.text (outputSign append), .text f]] := by
    intro r hr
    rcases List.mem_cons.mp hr with rfl | hr
    · exact hreads r (by simp)
    · exact ⟨_, _, List.mem_singleton.mp hr, hsign⟩
  -- Both calls expand and run the same row, and differ only in what is done with the output.
  have halone := hreads.running_call_eq input [] w
  rw [h.running_eq] at halone
  rw [hboth.running_call_eq]
  simp only [afterIntake, expandRows] at halone ⊢
  cases hexpand : (expandRow w row).2 with
  | some e => simp [hexpand] at halone
  | none =>
      simp only [hexpand, List.headD_cons] at halone ⊢
      cases hrun : (runRow (expandRow w row).1 input w).fault with
      | some e => simp [hrun] at halone
      | none =>
          simp only [hrun] at halone ⊢
          simp only [redirect, Prod.mk.injEq] at halone
          obtain ⟨rfl, rfl, -⟩ := halone
          exact redirect_outputSign (expandRow w row).1 append f _ _

end Calls

/-- A call that succeeds is run in the same way with a redirection of its output. Every item that it
gives out is then written to the file as a line: the file holds these lines and nothing else, or
holds them behind what it held when the application was done, and nothing is given out. Where no
file can be written the call fails, and leaves what the application has left. -/
theorem redirected_call_writes {row : Row} {input : List Value} {w w' : World} {items : List Text}
    (h : (call [row] input [] w).Shows (items.map .text) none w') (f : Text) :
    (w'.CanWrite f →
      (∃ v, (call [row, [.text ['>'], .text f]] input [] w).Shows [] none v ∧
        v.entryAt f = .ok (.file (.text (asLines items)))) ∧
      (∃ v, (call [row, [.text ['>', '>'], .text f]] input [] w).Shows [] none v ∧
        v.entryAt f = .ok (.file (World.extended (w'.entryAt f) (asLines items))))) ∧
    (¬ w'.CanWrite f → ∃ e,
      (call [row, [.text ['>'], .text f]] input [] w).Shows (items.map .text) (some e) w' ∧
      (call [row, [.text ['>', '>'], .text f]] input [] w).Shows (items.map .text)
        (some e) w') := by
  have hover := running_call_redirected h false f
  have hbehind := running_call_redirected h true f
  constructor
  · intro hcan
    constructor
    · obtain ⟨v, hwrite, hentry⟩ := World.exists_writeText hcan false (asLines items)
      rw [writeOutput_ok hwrite] at hover
      exact ⟨v, Outcome.shows_of_running hover, hentry⟩
    · obtain ⟨v, hwrite, hentry⟩ := World.exists_writeText hcan true (asLines items)
      rw [writeOutput_ok hwrite] at hbehind
      exact ⟨v, Outcome.shows_of_running hbehind, hentry⟩
  · intro hcannot
    obtain ⟨e, herror⟩ := World.exists_writeText_error hcannot
    rw [writeOutput_error (herror false _)] at hover
    rw [writeOutput_error (herror true _)] at hbehind
    exact ⟨e, Outcome.shows_of_running hover, Outcome.shows_of_running hbehind⟩

/-- A file to which something is added: `cat` gives out lines that end with a line break, and behind
each of them a second one is written. -/
theorem redirected_call_writes_behind :
    World.odd.CanWrite "f".toList ∧
      ∃ v, (call [[.text "cat".toList], [.text ['>', '>'], .text "f".toList]]
          [.list [.text "a\n".toList, .text "b".toList]] [] World.odd).Shows [] none v ∧
        v.entryAt "f".toList =
          .ok (.file (.text ("-\n\x27\n".toList ++ "a\n\nb\n".toList))) := by
  have hcan : World.odd.CanWrite "f".toList := ⟨by decide, _, rfl⟩
  have hcall : (call [[.text "cat".toList]] [.list [.text "a\n".toList, .text "b".toList]] []
      World.odd).Shows (["a\n".toList, "b".toList].map .text) none World.odd :=
    ⟨rfl, rfl, rfl⟩
  exact ⟨hcan, ((redirected_call_writes hcall "f".toList).1 hcan).2⟩

/-- What is written differs from what is given out: behind each line of a file, which ends with a
line break, there is a second one. -/
theorem redirected_lines_differ :
    let items := ["-\n".toList, "\x27\n".toList]
    (call [[.text "cat".toList, .text "f".toList]] [] [] World.odd).Shows (items.map .text) none
        World.odd ∧
      World.odd.CanWrite "h".toList ∧
      (∃ v, (call [[.text "cat".toList, .text "f".toList], [.text ['>'], .text "h".toList]] [] []
          World.odd).Shows [] none v ∧
        v.entryAt "h".toList = .ok (.file (.text "-\n\n\x27\n\n".toList))) ∧
      items.flatten = "-\n\x27\n".toList ∧ items.flatten ≠ "-\n\n\x27\n\n".toList := by
  intro items
  exact ⟨⟨rfl, rfl, rfl⟩, ⟨by decide, _, rfl⟩, ⟨_, ⟨rfl, rfl, rfl⟩, rfl⟩, by decide, by decide⟩

end CommandShell.Command
