import CommandShell.Tree.Basic

/-! # Asking a node for its parts

The nodes of a rule have named parts: children by rule or by kind of token. Some parts come
at most once; of the others there can be several. -/

namespace CommandShell

/-- A sort of children. -/
inductive Part where
  | node (r : Rule)
  | leaf (k : Kind)
deriving DecidableEq, Repr

namespace Part

def name : Part → Text
  | .node r => r.name
  | .leaf .finish => "EOF".toList
  | .leaf k => k.name

def members (t : Tree) : Part → List Tree
  | .node r => t.nodesOf r
  | .leaf k => t.leavesOf k

end Part

/-- The parts of a rule that come at most once. -/
def Rule.singleParts : Rule → List Part
  | .line => [.node .command, .leaf .finish]
  | .command => [.node .pipe, .node .call]
  | .pipe => [.node .pipe]
  | .call => [.node .argument]
  | .atom => [.node .redirection, .node .argument]
  | .argument => []
  | .redirection => [.node .argument, .leaf .blank]
  | .unquoted => [.leaf .word]
  | .quoted => [.node .singleQuoted, .node .doubleQuoted, .node .backQuoted]
  | .singleQuoted => []
  | .backQuoted => []
  | .doubleQuoted => []

/-- The parts of a rule of which there can be several. -/
def Rule.manyParts : Rule → List Part
  | .line => []
  | .command => [.node .command]
  | .pipe => [.node .call]
  | .call => [.node .redirection, .node .atom, .leaf .blank, .leaf .lineBreak]
  | .atom => []
  | .argument => [.node .quoted, .node .unquoted]
  | .redirection => []
  | .unquoted => []
  | .quoted => []
  | .singleQuoted => [.leaf .word, .leaf .blank]
  | .backQuoted => [.leaf .word, .leaf .blank]
  | .doubleQuoted => [.leaf .word, .node .backQuoted, .leaf .blank]

/-- The answer of a node that is asked for a part. -/
inductive Answer where
  | one (t : Option Tree)
  | many (ts : List Tree)

/-- Ask a node for a part by name, and for the one with an index if there can be several. -/
def Tree.ask (t : Tree) (part : Text) (index : Option Nat) : Option (Rule × Answer) :=
  match t with
  | .node r _ =>
      match r.singleParts.find? (fun p => p.name = part) with
      | some p => some (r, .one (p.members t).head?)
      | none =>
          match r.manyParts.find? (fun p => p.name = part) with
          | some p =>
              match index with
              | some i => some (r, .one (p.members t)[i]?)
              | none => some (r, .many (p.members t))
          | none => some (r, .one none)
  | _ => none

end CommandShell
