import CommandShell.Command.Call

/-! # Commands

A command is a call, a pipe or a sequence. Pipes and sequences hold their calls one after another
in one list of rows: a row that starts with the name of an application starts a call. How the calls
are run is `Pipe.eval` and `Seq.eval`. -/

namespace CommandShell

inductive Form where
  | call
  | pipe
  | sequence
deriving DecidableEq, Repr

namespace Command

/-- Does a word name an application? -/
def namesApplication : Value → Bool
  | .text t => Application.isName t
  | .list _ => false

/-- Rows as calls. At a row without words the decoding stops, and what is not decoded is left. -/
structure Decoded where
  calls : List (List Row)
  left : Option (List Row)

/-- Decode the rows after those of the call being read. -/
def decodeAfter (current : List Row) : List Row → Decoded
  | [] => ⟨[current], none⟩
  | [] :: rest => ⟨[], some (current ++ [] :: rest)⟩
  | (word :: words) :: rest =>
      if namesApplication word then
        let d := decodeAfter [word :: words] rest
        ⟨current :: d.calls, d.left⟩
      else decodeAfter (current ++ [word :: words]) rest

def decode : List Row → Decoded
  | [] => ⟨[[]], none⟩
  | row :: rest => decodeAfter [row] rest

/-- Decoding keeps all rows in order. -/
theorem decodeAfter_rows : ∀ (rows current : List Row),
    (decodeAfter current rows).calls.flatten ++ ((decodeAfter current rows).left.getD []) =
      current ++ rows
  | [], current => by simp [decodeAfter]
  | [] :: rest, current => by simp [decodeAfter]
  | (word :: words) :: rest, current => by
      by_cases h : namesApplication word = true
      · simp [decodeAfter, h, decodeAfter_rows rest]
      · simp [decodeAfter, h, decodeAfter_rows rest]

/-- Run calls one after another on the same input and output, up to the first failure. -/
def runSequence : List (List Row) → List Value → List Value → World → Outcome
  | [], input, out, w => ⟨[], none, input, out, w, none⟩
  | c :: cs, input, out, w =>
      let r := call c input out w
      match r.fault with
      | some e => ⟨r.rows ++ cs.flatten, none, r.input, r.out, r.world, some e⟩
      | none =>
          let r' := runSequence cs r.input r.out r.world
          { r' with rows := r.rows ++ r'.rows }

/-- Run calls one after another, the output of each being the input of the next. -/
def runPipe : List (List Row) → List Value → List Value → World → Outcome
  | [], input, out, w => ⟨[], none, input, out, w, none⟩
  | c :: cs, input, _, w =>
      let r := call c [.list input] [] w
      match r.fault with
      | some e => ⟨r.rows ++ cs.flatten, none, input, r.out, r.world, some e⟩
      | none =>
          let r' := runPipe cs r.out r.out r.world
          { r' with rows := r.rows ++ r'.rows }

/-- What could not be decoded is a fault once the calls before it have been run. -/
def withLeft (left : Option (List Row)) (r : Outcome) : Outcome :=
  match left with
  | none => r
  | some rows =>
      { r with
        rows := r.rows ++ rows
        fault := some (r.fault.getD .listIndex) }

/-- Run a command. -/
def run (form : Form) (rows : List Row) (input out : List Value) (w : World) : Outcome :=
  match form with
  | .call => call rows input out w
  | .sequence =>
      let d := decode rows
      withLeft d.left (runSequence d.calls input out w)
  | .pipe =>
      let d := decode rows
      { withLeft d.left (runPipe d.calls input out w) with input := input }

end Command

end CommandShell
