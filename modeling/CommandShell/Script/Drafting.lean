import CommandShell.Parse.Machine
import CommandShell.Script.Basic

/-! # From trees to commands

The tree of a line is walked from left to right and its words are collected in a draft. Text
between back quotes is a line of its own: it is run on the way, and its output becomes part of a
word. The case of `walk` for a rule is the visit of its nodes, from `visitCommand` to
`visitDouble_quoted`, and `substitute` is `eval_nested_backquotes`. -/

namespace CommandShell

/-- What running a line gives: its output, the world after it, and why it failed if it did. -/
abbrev Running := List Value × World × Option Fault

/-- The draft so far and the world in which it is made. -/
structure DraftState where
  draft : Draft
  world : World

/-- Steps of drafting. They fail at the first fault. -/
abbrev Drafting := EStateM Fault DraftState

namespace Drafting

def update (f : Draft → Draft) : Drafting Unit :=
  modify fun c => { c with draft := f c.draft }

def addWord (word : Text) : Drafting Unit := do
  match (← get).draft.addWord? word with
  | some d => update fun _ => d
  | none => throw .listIndex

/-- The texts before, between and after the first two back quotes. -/
def backQuoted? (t : Text) : Option (Text × Text × Text) :=
  match t.dropWhile (· ≠ Text.backQuote) with
  | [] => none
  | _ :: rest =>
      match rest.dropWhile (· ≠ Text.backQuote) with
      | [] => none
      | _ :: after =>
          some (t.takeWhile (· ≠ Text.backQuote), rest.takeWhile (· ≠ Text.backQuote), after)

/-- The last item without its last character. -/
def trimLast : List Value → List Value
  | [] => []
  | [v] => [v.dropLast]
  | v :: w :: rest => v :: trimLast (w :: rest)

/-- All items as one text. -/
def joined (position : Nat) : List Value → Except Fault Text
  | [] => .ok []
  | .list _ :: _ => .error (.joinList position)
  | .text t :: rest =>
      match joined (position + 1) rest with
      | .ok u => .ok (t ++ u)
      | .error e => .error e

/-- Run what is between back quotes; the output, less its last character, takes its place. -/
def substitute (run : Text → List Value → World → Running) (t : Text) : Drafting Unit := do
  match backQuoted? t with
  | none => throw .listIndex
  | some (before, line, after) =>
      let (out, w, fault) := run line [.text before] (← get).world
      modify fun c => { c with world := w }
      match fault with
      | some e => throw e
      | none => pure ()
      if (← get).draft.tree.isEmpty then update (·.openRow [])
      if (← get).draft.currentRow?.isNone then throw .listIndex
      match joined 0 (trimLast out ++ [.text after]) with
      | .ok word => addWord word
      | .error e => throw e

/-- The sign with which a redirection starts. -/
def redirectionSign (t : Text) : Except Fault Text :=
  match t with
  | '>' :: '>' :: _ => .ok ['>', '>']
  | c :: _ => .ok [c]
  | [] => .error .textIndex

/-- Words that could name an application start a row while rows are expected. -/
def startRow (t : Text) : Drafting Unit := do
  let d := (← get).draft
  if Application.isName t && d.tree.length ≠ d.sequences then update (·.openRow [])

mutual
def walk (run : Text → List Value → World → Running) : Tree → Drafting Unit
  | .leaf _ => pure ()
  | .skipped _ => pure ()
  | .missing _ => pure ()
  | .node rule kids =>
      match rule with
      | .line => walkAll run kids
      | .command => do
          let isRule (r : Rule) := kids.any (fun k => k.rule? = some r)
          if isRule .command then
            walkAll run kids
            update (·.closeSequence)
          else if isRule .pipe then
            let start := (← get).draft.tree.length
            update (·.expectRow)
            walkAll run kids
            update (·.closePipe start)
          else walkAll run kids
      | .pipe => do
          update (·.expectRow)
          walkAll run kids
      | .call => do
          update (·.expectRow)
          walkAll run kids
      | .atom => walkAll run kids
      | .argument => do
          startRow (Tree.textAll kids)
          walkAll run kids
      | .redirection => do
          update (·.expectRow)
          match redirectionSign (Tree.textAll kids) with
          | .error e => throw e
          | .ok sign => update (·.openRow [sign])
          walkAll run kids
      | .unquoted => addWord (Tree.textAll kids)
      | .quoted => walkAll run kids
      | .singleQuoted => addWord (Tree.textAll kids)
      | .backQuoted => substitute run (Tree.textAll kids)
      | .doubleQuoted =>
          let t := Tree.textAll kids
          if t.contains Text.backQuote then substitute run t
          else addWord (t.filter (· ≠ Text.doubleQuote))

def walkAll (run : Text → List Value → World → Running) : List Tree → Drafting Unit
  | [] => pure ()
  | t :: ts => do
      walk run t
      walkAll run ts
end

/-- The commands of a tree. A tree that is just a call is run as one; otherwise what has been met
is run. -/
def commands (t : Tree) (d : Draft) : List (Form × List Nat) :=
  let isRule (r : Rule) := t.kids.any (fun k => k.rule? = some r)
  if isRule .command || isRule .pipe then d.queued
  else if isRule .call then d.single
  else d.queued

end Drafting

/-- The outcome of turning a line into commands. -/
structure Drafted where
  draft : Draft
  commands : Except Fault (List (Form × List Nat))
  world : World

/-- Turn a line into commands; what is between back quotes is run by `run`. -/
def draftWith (run : Text → List Value → World → Running) (line : Text) (w : World) : Drafted :=
  let reading := Parse.read .command line
  let w' := w.warn (reading.complaints.flatMap Complaint.report)
  match Drafting.walk run reading.tree ⟨Draft.empty, w'⟩ with
  | .ok () c => ⟨c.draft, .ok (Drafting.commands reading.tree c.draft), c.world⟩
  | .error e c => ⟨c.draft, .error e, c.world⟩

end CommandShell
