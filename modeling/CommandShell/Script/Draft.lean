import CommandShell.Command.Basic

/-! # Drafts of commands

While a line is turned into commands its words are collected in rows. The rows that are open make
the current tree. A pipe takes its rows out of the tree, which is then a new one; sequences refer
to the tree that was current when they were met, and see what is added to it later. A draft is the
state of a `Converter`: `tree`, `sequences`, the place `command_index`, and the `command_queue`. -/

namespace CommandShell

/-- A command that has been met. -/
inductive Plan where
  /-- The rows of a pipe, by number. -/
  | pipe (rows : List Nat)
  /-- The tree of a sequence, by number. -/
  | sequence (tree : Nat)
deriving DecidableEq, Repr

structure Draft where
  /-- All rows, in the order in which they were opened. -/
  rows : List (List Text)
  /-- Trees that pipes have ended, as the numbers of their rows. -/
  past : List (List Nat)
  /-- The current tree. -/
  tree : List Nat
  /-- The place in the tree of the row to which words are added. -/
  position : Int
  /-- How many rows are expected. -/
  sequences : Nat
  /-- Commands met, the first to be run first. -/
  queue : List Plan
deriving DecidableEq, Repr

namespace Draft

def empty : Draft := ⟨[], [], [], -1, 0, []⟩

/-- Open a row. -/
def openRow (d : Draft) (words : List Text) : Draft :=
  { d with
    rows := d.rows ++ [words]
    tree := d.tree ++ [d.rows.length]
    position := d.position + 1 }

def expectRow (d : Draft) : Draft := { d with sequences := d.sequences + 1 }

/-- The number of the row to which words are added. A place before the first counts from the
end. -/
def currentRow? (d : Draft) : Option Nat :=
  if 0 ≤ d.position then d.tree[d.position.toNat]?
  else if 0 ≤ d.position + d.tree.length then d.tree[(d.position + d.tree.length).toNat]?
  else none

/-- Add a word, if there is a row for it. -/
def addWord? (d : Draft) (word : Text) : Option Draft :=
  d.currentRow?.map (fun i => { d with rows := d.rows.modify i (· ++ [word]) })

/-- The numbers of the rows of a tree, past or current. -/
def treeRows (d : Draft) (tree : Nat) : List Nat := d.past[tree]?.getD d.tree

def planRows (d : Draft) : Plan → List Nat
  | .pipe rows => rows
  | .sequence tree => d.treeRows tree

/-- The words of rows. -/
def words (d : Draft) (rows : List Nat) : List (List Text) := rows.map (fun i => d.rows[i]?.getD [])

/-- The rows of the tree from `start` on become a pipe and leave the tree. -/
def closePipe (d : Draft) (start : Nat) : Draft :=
  { d with
    past := d.past ++ [d.tree]
    tree := d.tree.take start
    queue := .pipe (d.tree.drop start) :: d.queue }

/-- The tree becomes a sequence, unless a command with the same words has been met. -/
def closeSequence (d : Draft) : Draft :=
  if d.queue.any (fun p => d.words (d.planRows p) = d.words d.tree) then d
  else { d with queue := .sequence d.past.length :: d.queue }

end Draft

end CommandShell
