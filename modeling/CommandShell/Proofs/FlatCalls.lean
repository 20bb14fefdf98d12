import CommandShell.Proofs.CallRows
import CommandShell.Proofs.Filters

/-! # The calls of a flat list of rows

A pipe or a sequence holds the rows of its calls one after another. The calls are found again in
them, and running the command is running these calls in turn: each on the input and the output that
are there, or each on the output of the one before it. A call that fails is the last one run. -/

namespace CommandShell.Command

namespace Outcome

/-- A run before its first call. -/
def fresh (input out : List Value) (w : World) : Outcome := ⟨[], none, input, out, w, none⟩

/-- A run goes on with what a further call comes to. Once it has failed, the rows of that call are
left as they are and nothing else happens. -/
def goOn (r : Outcome) (rows : List Row) (next : Outcome) : Outcome :=
  match r.fault with
  | some _ => { r with rows := r.rows ++ rows }
  | none => { next with rows := r.rows ++ next.rows, taken := none }

/-- Run a call on the input and the output that are there. -/
def nextCall (r : Outcome) (rows : List Row) : Outcome :=
  r.goOn rows (call rows r.input r.out r.world)

/-- Run a call on the list of what has been given out before, with nothing given out yet. What it
gives out is there for the next. -/
def nextStage (r : Outcome) (rows : List Row) : Outcome :=
  r.goOn rows { call rows [.list r.input] [] r.world with
    input := (call rows [.list r.input] [] r.world).out }

theorem goOn_of_fault {r : Outcome} {e : Fault} (h : r.fault = some e) (rows : List Row)
    (next : Outcome) : r.goOn rows next = { r with rows := r.rows ++ rows } := by
  simp only [goOn, h]

theorem goOn_of_none {r : Outcome} (h : r.fault = none) (rows : List Row) (next : Outcome) :
    r.goOn rows next = { next with rows := r.rows ++ next.rows, taken := none } := by
  simp only [goOn, h]

/-- Nothing is run after a failure. -/
theorem foldl_goOn_of_fault (next : Outcome → List Row → Outcome) (calls : List (List Row))
    {r : Outcome} {e : Fault} (h : r.fault = some e) :
    calls.foldl (fun r rows => r.goOn rows (next r rows)) r =
      { r with rows := r.rows ++ calls.flatten } := by
  induction calls generalizing r with
  | nil => simp
  | cons c calls ih =>
      have hfault : ({ r with rows := r.rows ++ c } : Outcome).fault = some e := h
      rw [List.foldl_cons, goOn_of_fault h, ih hfault, List.flatten_cons, List.append_assoc]

end Outcome

open Outcome

/-! ### Sequences -/

theorem nextCall_of_none {r : Outcome} (h : r.fault = none) (rows : List Row) :
    r.nextCall rows =
      { call rows r.input r.out r.world with
        rows := r.rows ++ (call rows r.input r.out r.world).rows
        taken := none } := goOn_of_none h rows _

/-- The calls of a sequence in turn, after others that have not failed. -/
theorem foldl_nextCall (calls : List (List Row)) {r : Outcome} (hf : r.fault = none)
    (ht : r.taken = none) :
    calls.foldl nextCall r =
      { runSequence calls r.input r.out r.world with
        rows := r.rows ++ (runSequence calls r.input r.out r.world).rows } := by
  induction calls generalizing r with
  | nil =>
      obtain ⟨rows, taken, input, out, w, fault⟩ := r
      subst hf ht
      simp [runSequence]
  | cons c calls ih =>
      have hstep := nextCall_of_none hf c
      have hfault : (r.nextCall c).fault = (call c r.input r.out r.world).fault := by rw [hstep]
      have htaken : (r.nextCall c).taken = none := by rw [hstep]
      rw [List.foldl_cons]
      cases hc : (call c r.input r.out r.world).fault with
      | some e =>
          have hstop := foldl_goOn_of_fault (fun r rows => call rows r.input r.out r.world) calls
            (hfault.trans hc)
          refine hstop.trans ?_
          rw [hstep]
          simp [runSequence, hc]
      | none =>
          rw [ih (hfault.trans hc) htaken, hstep]
          simp [runSequence, hc]

theorem runSequence_eq_foldl (calls : List (List Row)) (input out : List Value) (w : World) :
    runSequence calls input out w = calls.foldl nextCall (fresh input out w) := by
  rw [foldl_nextCall calls rfl rfl]
  rfl

/-! ### Pipes -/

theorem nextStage_of_none {r : Outcome} (h : r.fault = none) (rows : List Row) :
    r.nextStage rows =
      { call rows [.list r.input] [] r.world with
        rows := r.rows ++ (call rows [.list r.input] [] r.world).rows
        taken := none
        input := (call rows [.list r.input] [] r.world).out } := goOn_of_none h rows _

/-- The calls of a pipe in turn, after others that have not failed. Which input is left is of no
importance: a pipe leaves the input that it was given. -/
theorem foldl_nextStage (calls : List (List Row)) {r : Outcome} (hf : r.fault = none)
    (ht : r.taken = none) (input : List Value) :
    { calls.foldl nextStage r with input := input } =
      { runPipe calls r.input r.out r.world with
        rows := r.rows ++ (runPipe calls r.input r.out r.world).rows
        input := input } := by
  induction calls generalizing r with
  | nil =>
      obtain ⟨rows, taken, given, out, w, fault⟩ := r
      subst hf ht
      simp [runPipe]
  | cons c calls ih =>
      have hstep := nextStage_of_none hf c
      have hfault : (r.nextStage c).fault = (call c [.list r.input] [] r.world).fault := by
        rw [hstep]
      have htaken : (r.nextStage c).taken = none := by rw [hstep]
      rw [List.foldl_cons]
      cases hc : (call c [.list r.input] [] r.world).fault with
      | some e =>
          have hstop : calls.foldl nextStage (r.nextStage c) = _ :=
            foldl_goOn_of_fault _ calls (hfault.trans hc)
          rw [hstop, hstep]
          simp [runPipe, hc]
      | none =>
          rw [ih (hfault.trans hc) htaken, hstep]
          simp [runPipe, hc]

theorem run_pipe_eq_foldl {b : List Row} {blocks : List (List Row)} (hb : IsBlock b)
    (h : ∀ b ∈ blocks, IsBlock b) (input out : List Value) (w : World) :
    run .pipe (b ++ blocks.flatten) input out w =
      { (b :: blocks).foldl nextStage (fresh input out w) with input := input } := by
  rw [foldl_nextStage (b :: blocks) rfl rfl]
  simp only [run, decode_blocks hb h, withLeft]
  rfl

/-- The rows of calls, put one after another, are decoded to these calls. Running them as a sequence
or as a pipe is running the calls in turn, up to the first that fails: in a sequence each on the
input and the output that are there, in a pipe each on what the one before it has given out, the
first on the input of the pipe. -/
theorem flat_rows_run_in_turn {calls : List (List Row)} (hne : calls ≠ [])
    (h : ∀ c ∈ calls, IsBlock c) :
    decode calls.flatten = ⟨calls, none⟩ ∧
      ∀ (input out : List Value) (w : World),
        run .sequence calls.flatten input out w = calls.foldl nextCall (fresh input out w) ∧
          run .pipe calls.flatten input out w =
            { calls.foldl nextStage (fresh input out w) with input := input } := by
  obtain ⟨c, cs, rfl⟩ := List.exists_cons_of_ne_nil hne
  have hc : IsBlock c := h c (by simp)
  have hcs : ∀ d ∈ cs, IsBlock d := fun d hd => h d (by simp [hd])
  rw [List.flatten_cons]
  refine ⟨decode_blocks hc hcs, fun input out w => ⟨?_, run_pipe_eq_foldl hc hcs input out w⟩⟩
  rw [← runSequence_eq_foldl]
  simp only [run, decode_blocks hc hcs, withLeft]

/-- A file is given out twice, then one is to be removed that is not there, and nothing more is
done. In the sequence the lines have been given out; in the pipe they have gone to the next call. -/
theorem flat_rows_run_in_turn_stopped :
    let calls : List (List Row) :=
      [[[.text "cat".toList, .text "f".toList]],
        [[.text "cat".toList], [.text ['<'], .text "f".toList]],
        [[.text "rm".toList, .text "x".toList]],
        [[.text "echo".toList, .text "a".toList], [.text ['>'], .text "x".toList]]]
    (calls ≠ [] ∧ ∀ c ∈ calls, IsBlock c) ∧
      (run .sequence calls.flatten [] [] World.odd).out =
        [.text ['-', '\n'], .text [Text.singleQuote, '\n'], .text ['-', '\n'],
          .text [Text.singleQuote, '\n']] ∧
      (run .sequence calls.flatten [] [] World.odd).fault = some (.notFile "x".toList) ∧
      (run .pipe calls.flatten [] [] World.odd).out = [] ∧
      (run .pipe calls.flatten [] [] World.odd).fault = some (.notFile "x".toList) := by
  intro calls
  have h : ∀ c ∈ calls, IsBlock c := by
    intro c hc
    simp only [calls, List.mem_cons, List.not_mem_nil, or_false] at hc
    rcases hc with rfl | rfl | rfl | rfl
    · exact ⟨by decide, by simp⟩
    · exact ⟨by decide, by simp [Continues, namesApplication]; decide⟩
    · exact ⟨by decide, by simp⟩
    · exact ⟨by decide, by simp [Continues, namesApplication]; decide⟩
  obtain ⟨-, hrun⟩ := flat_rows_run_in_turn (by simp [calls]) h
  obtain ⟨hsequence, hpipe⟩ := hrun [] [] World.odd
  refine ⟨⟨by simp [calls], h⟩, ?_⟩
  rw [hsequence, hpipe]
  exact ⟨by decide +kernel, by decide +kernel, by decide +kernel, by decide +kernel⟩

end CommandShell.Command
