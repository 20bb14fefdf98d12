import CommandShell.Application.Effect
import CommandShell.Files.Expand

/-! # Redirections and expansion

A command is a list of rows of words. A row that starts with `<`, `>` or `>>` is a redirection. Here
`takeInput` is `input_redir`, `expandRows` is `globbing` and `writeOutput` is `output_redir`. -/

namespace CommandShell

abbrev Row := List Value

namespace Command

/-- The outcome of looking for input: the input with the lines read, the row that was used. -/
structure Intake where
  input : List Value
  taken : Option Nat
  fault : Option Fault

/-- Look at the rows from number `i` on. One file can be read; a second one, or a row that names
no file or several, is a fault. -/
def takeInputFrom (w : World) (i : Nat) (taken : Option Nat) (input : List Value) :
    List Row → Intake
  | [] => ⟨input, taken, none⟩
  | [] :: _ => ⟨input, none, some .listIndex⟩
  | (word :: words) :: rest =>
      if word.isText ['<'] then
        match words, taken with
        | [file], none =>
            match w.openFile file with
            | .error e => ⟨input, none, some e⟩
            | .ok lines => takeInputFrom w (i + 1) (some i) (input ++ [.list lines]) rest
        | _, _ => ⟨input, none, some .severalInputs⟩
      else takeInputFrom w (i + 1) taken input rest

def takeInput (w : World) (rows : List Row) (input : List Value) : Intake :=
  takeInputFrom w 0 none input rows

/-- The rows without the one that was used for input. -/
def remaining (rows : List Row) : Option Nat → List Row
  | none => rows
  | some i => rows.eraseIdx i

/-- Expand the words from number `i` on, as many as `n`. A word with a star is taken out and the
paths that it describes are added at the end; if there are none it stays. -/
def expandFrom (w : World) : Nat → Nat → Row → Row × Option Fault
  | 0, _, row => (row, none)
  | n + 1, i, row =>
      match row[i]? with
      | none => (row, some .listIndex)
      | some word =>
          if word.has '*' then
            match word with
            | .list _ => (row, some .listAsPath)
            | .text t =>
                match w.expand t with
                | .error e => (row, some e)
                | .ok [] => expandFrom w n (i + 1) row
                | .ok paths => expandFrom w n (i + 1) (row.eraseIdx i ++ paths.map .text)
          else expandFrom w n (i + 1) row

def expandRow (w : World) (row : Row) : Row × Option Fault := expandFrom w row.length 0 row

/-- Expand the first row. -/
def expandRows (w : World) : List Row → List Row × Option Fault
  | [] => ([], some .listIndex)
  | row :: rest =>
      let r := expandRow w row
      (r.1 :: rest, r.2)

/-- Each item on a line of its own. -/
def outputText : List Value → Except Fault Text
  | [] => .ok []
  | .list _ :: _ => .error .addToList
  | .text t :: rest =>
      match outputText rest with
      | .ok u => .ok (t ++ ['\n'] ++ u)
      | .error e => .error e

/-- Write the output to a file and clear it. -/
def writeOutput (w : World) (file : Value) (append : Bool) (out : List Value) :
    List Value × World × Option Fault :=
  match outputText out with
  | .error e => (out, w, some e)
  | .ok t =>
      match file with
      | .list _ => (out, w, some .listAsPath)
      | .text path =>
          match w.writeText path append t with
          | .error e => (out, w, some e)
          | .ok w' => ([], w', none)

end Command

end CommandShell
