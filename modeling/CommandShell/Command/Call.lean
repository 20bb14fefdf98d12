import CommandShell.Application.Arguments
import CommandShell.Command.Redirect

/-! # Calls

A call is one application with its words in the first row and redirections in the others. To run
one is `Call.eval`. -/

namespace CommandShell.Command

/-- The state after a call or several. -/
structure Outcome where
  /-- The rows, with words that were expanded. -/
  rows : List Row
  /-- The row that was used for input. -/
  taken : Option Nat
  input : List Value
  out : List Value
  world : World
  fault : Option Fault

/-- A word with a quote in it loses its first and last character, unless it is just two single
quotes. -/
def unquote (v : Value) : Value :=
  if (v.has Text.singleQuote || v.has Text.doubleQuote) &&
      !v.isText [Text.singleQuote, Text.singleQuote] then v.inner
  else v

/-- The words after the application's name, and the input if its first part is not empty. -/
def callArguments (words input : List Value) : List Value :=
  let args :=
    match input with
    | [] => words
    | first :: _ => if first.size = 0 then words else words ++ input
  args.map unquote

/-- The application that a word names, and whether its failures are only printed. -/
def application (word : Value) : Except Fault (Application × Bool) :=
  match word.first? with
  | .error e => .error e
  | .ok c =>
      match word with
      | .list _ => .error .listAsKey
      | .text t =>
          let guarded := c.isText ['_']
          let name := if guarded then t.drop 1 else t
          match Application.ofName? name with
          | some a => .ok (a, guarded)
          | none => .error (.unknownApplication name)

/-- Run the application that a row names. -/
def runRow (row : Row) (input : List Value) (w : World) : Effect :=
  match row with
  | [] => .failed [] w .listIndex
  | word :: words =>
      match application word with
      | .error e => .failed [] w e
      | .ok (a, guarded) =>
          match a.arguments (callArguments words input) with
          | .error e => .failed [] w e
          | .ok args => if guarded then (a.exec args w).guarded else a.exec args w

/-- Redirect the output as the second row says. -/
def redirect (rows : List Row) (out : List Value) (w : World) : List Value × World × Option Fault :=
  match rows with
  | _ :: (sign :: words) :: _ =>
      if sign.isText ['>'] || sign.isText ['>', '>'] then
        match words with
        | [] => (out, w, some .listIndex)
        | [file] => writeOutput w (.text file.shown) (sign.isText ['>', '>']) out
        | _ => (out, w, some .severalOutputs)
      else (out, w, none)
  | _ => (out, w, none)

/-- The number of the row that holds the application. -/
def mainRow (taken : Option Nat) : Nat := if taken = some 0 then 1 else 0

/-- Run a call: take the input, expand, run the application, redirect the output. -/
def call (rows : List Row) (input out : List Value) (w : World) : Outcome :=
  let intake := takeInput w rows input
  match intake.fault with
  | some e => ⟨rows, none, intake.input, out, w, some e⟩
  | none =>
      let expanded := expandRows w (remaining rows intake.taken)
      let rows' :=
        match expanded.1 with
        | [] => rows
        | row :: _ => rows.set (mainRow intake.taken) row
      match expanded.2 with
      | some e => ⟨rows', intake.taken, intake.input, out, w, some e⟩
      | none =>
          let effect := runRow (expanded.1.headD []) intake.input w
          let out' := out ++ effect.added
          match effect.fault with
          | some e => ⟨rows', intake.taken, intake.input, out', effect.world, some e⟩
          | none =>
              let r := redirect expanded.1 out' effect.world
              ⟨rows', intake.taken, intake.input, r.1, r.2.1, r.2.2⟩

end CommandShell.Command
