import CommandShell.Application.Basic
import CommandShell.Proofs.Derivation
import CommandShell.Proofs.Tokens

/-! # The outline of a line

The parts of a line in the order in which they are written: its items, which are calls and pipes,
its calls, and the arguments and redirections of these. The notes of a tree say what is met in
it from left to right. -/

namespace CommandShell

namespace Tree

mutual
/-- The nodes of certain rules, left to right, those inside another such node apart. -/
def outermost (rs : List Rule) : Tree → List Tree
  | .node r kids => if r ∈ rs then [.node r kids] else outermostAll rs kids
  | .leaf _ => []
  | .skipped _ => []
  | .missing _ => []

def outermostAll (rs : List Rule) : List Tree → List Tree
  | [] => []
  | t :: ts => outermost rs t ++ outermostAll rs ts
end

@[simp] theorem outermost_leaf (rs : List Rule) (t : Token) : outermost rs (.leaf t) = [] := rfl

theorem outermost_node (rs : List Rule) (r : Rule) (kids : List Tree) :
    outermost rs (.node r kids) = if r ∈ rs then [.node r kids] else outermostAll rs kids := rfl

@[simp] theorem outermostAll_nil (rs : List Rule) : outermostAll rs [] = [] := rfl

@[simp] theorem outermostAll_cons (rs : List Rule) (t : Tree) (ts : List Tree) :
    outermostAll rs (t :: ts) = outermost rs t ++ outermostAll rs ts := rfl

/-- The pipes and calls that `;` joins. -/
def items (t : Tree) : List Tree := t.outermost [.pipe, .call]

def calls (t : Tree) : List Tree := t.outermost [.call]

/-- The arguments, those of redirections among them. -/
def arguments (t : Tree) : List Tree := t.outermost [.argument]

def redirections (t : Tree) : List Tree := t.outermost [.redirection]

/-- The first of the children that is a node. -/
def firstNode? (t : Tree) : Option Tree := t.kids.find? (fun k => k.rule?.isSome)

/-- Does a call start with an argument that is the name of an application? -/
def startsWithName (c : Tree) : Bool :=
  c.firstNode?.any (fun a => a.rule? = some .argument && Application.isName a.text)

/-- The operators of redirections. -/
def operators : List Text := [['<'], ['>'], ['>', '>']]

def isOperator (t : Tree) : Bool := t.kind? = some .less || t.kind? = some .greater

/-- The operator of a redirection. -/
def sign (t : Tree) : Text := textAll (t.kids.filter isOperator)

end Tree

/-- What is met in a tree. -/
inductive Note where
  /-- A call or a pipe. -/
  | expected
  /-- A redirection with its operator. -/
  | redirection (sign : Text)
  /-- An argument with its text. -/
  | argument (t : Text)
  /-- A piece of an argument, as a word. -/
  | word (t : Text)
deriving DecidableEq, Repr

namespace Note

def argument? : Note → Option Text
  | .argument t => some t
  | _ => none

def redirection? : Note → Option Text
  | .redirection s => some s
  | _ => none

/-- The arguments that are names of applications. -/
def names (notes : List Note) : List Text :=
  (notes.filterMap argument?).filter Application.isName

@[simp] theorem names_nil : names [] = [] := rfl

@[simp] theorem names_word (t : Text) (notes : List Note) :
    names (.word t :: notes) = names notes := rfl

@[simp] theorem names_redirection (s : Text) (notes : List Note) :
    names (.redirection s :: notes) = names notes := rfl

theorem names_argument {t : Text} (h : Application.isName t = false) (notes : List Note) :
    names (.argument t :: notes) = names notes := by
  simp [names, argument?, h]

theorem names_name {t : Text} (h : Application.isName t = true) (notes : List Note) :
    names (.argument t :: notes) = t :: names notes := by
  simp [names, argument?, h]

end Note

namespace Tree

mutual
def notes : Tree → List Note
  | .leaf _ => []
  | .skipped _ => []
  | .missing _ => []
  | .node r kids =>
      match r with
      | .pipe => .expected :: notesAll kids
      | .call => .expected :: notesAll kids
      | .redirection => .redirection (sign (.node r kids)) :: notesAll kids
      | .argument => .argument (textAll kids) :: notesAll kids
      | .unquoted => [.word (textAll kids)]
      | .singleQuoted => [.word (textAll kids)]
      | .doubleQuoted => [.word ((textAll kids).filter (· ≠ Text.doubleQuote))]
      | _ => notesAll kids

def notesAll : List Tree → List Note
  | [] => []
  | t :: ts => notes t ++ notesAll ts
end

section Equations

variable (kids : List Tree)

@[simp] theorem notes_leaf (t : Token) : notes (.leaf t) = [] := rfl

@[simp] theorem notes_pipe : notes (.node .pipe kids) = .expected :: notesAll kids := rfl

@[simp] theorem notes_call : notes (.node .call kids) = .expected :: notesAll kids := rfl

@[simp] theorem notes_redirection : notes (.node .redirection kids) =
    .redirection (sign (.node .redirection kids)) :: notesAll kids := rfl

@[simp] theorem notes_argument :
    notes (.node .argument kids) = .argument (textAll kids) :: notesAll kids := rfl

@[simp] theorem notes_unquoted : notes (.node .unquoted kids) = [.word (textAll kids)] := rfl

@[simp] theorem notes_singleQuoted :
    notes (.node .singleQuoted kids) = [.word (textAll kids)] := rfl

@[simp] theorem notes_doubleQuoted : notes (.node .doubleQuoted kids) =
    [.word ((textAll kids).filter (· ≠ Text.doubleQuote))] := rfl

@[simp] theorem notes_quoted : notes (.node .quoted kids) = notesAll kids := rfl

@[simp] theorem notes_atom : notes (.node .atom kids) = notesAll kids := rfl

@[simp] theorem notesAll_nil : notesAll [] = [] := rfl

@[simp] theorem notesAll_cons (t : Tree) (ts : List Tree) :
    notesAll (t :: ts) = notes t ++ notesAll ts := rfl

end Equations

end Tree

/-- A word goes to the end of the last row. -/
def addToLast (word : Text) : List (List Text) → List (List Text)
  | [] => []
  | [row] => [row ++ [word]]
  | row :: next :: rest => row :: addToLast word (next :: rest)

/-- Collect words in rows: a redirection starts a row with its operator, a word goes to the last
row. -/
def gather (rows : List (List Text)) : List Note → List (List Text)
  | [] => rows
  | .expected :: notes => gather rows notes
  | .argument _ :: notes => gather rows notes
  | .redirection sign :: notes => gather (rows ++ [[sign]]) notes
  | .word t :: notes => gather (addToLast t rows) notes

namespace Tree

/-- The rows of a call: its words, and one row for each redirection with the words after it. -/
def rows (c : Tree) : List (List Text) := gather [[]] c.notes

theorem outermostAll_append (rs : List Rule) : ∀ xs ys : List Tree,
    outermostAll rs (xs ++ ys) = outermostAll rs xs ++ outermostAll rs ys
  | [], ys => rfl
  | x :: xs, ys => by simp [outermostAll_append rs xs ys]

theorem notesAll_append : ∀ xs ys : List Tree, notesAll (xs ++ ys) = notesAll xs ++ notesAll ys
  | [], ys => rfl
  | x :: xs, ys => by simp [notesAll_append xs ys]

theorem textAll_append : ∀ xs ys : List Tree, textAll (xs ++ ys) = textAll xs ++ textAll ys
  | [], ys => rfl
  | x :: xs, ys => by simp [textAll_append xs ys]

theorem mem_textAll {kids : List Tree} {x : Tree} {c : Char} (hx : x ∈ kids) (hc : c ∈ x.text) :
    c ∈ textAll kids := by
  obtain ⟨before, after, rfl⟩ := List.append_of_mem hx
  rw [textAll_append, textAll_cons]
  exact List.mem_append_right _ (List.mem_append_left _ hc)

end Tree

end CommandShell
