import CommandShell.Text.Basic

/-! # Patterns

A pattern is a sequence of nodes. Each node says what may come next in a line. -/

namespace CommandShell.Pattern

structure Flags where
  ignoreCase : Bool
  multiline : Bool
  dotAll : Bool
  verbose : Bool
  ascii : Bool
  unicode : Bool
  template : Bool
deriving DecidableEq, Repr

namespace Flags

def none : Flags := ⟨false, false, false, false, false, false, false⟩

def union (a b : Flags) : Flags :=
  ⟨a.ignoreCase || b.ignoreCase, a.multiline || b.multiline, a.dotAll || b.dotAll,
    a.verbose || b.verbose, a.ascii || b.ascii, a.unicode || b.unicode, a.template || b.template⟩

def without (a b : Flags) : Flags :=
  ⟨a.ignoreCase && !b.ignoreCase, a.multiline && !b.multiline, a.dotAll && !b.dotAll,
    a.verbose && !b.verbose, a.ascii && !b.ascii, a.unicode && !b.unicode,
    a.template && !b.template⟩

def meets (a b : Flags) : Bool :=
  a.ignoreCase && b.ignoreCase || a.multiline && b.multiline || a.dotAll && b.dotAll ||
    a.verbose && b.verbose || a.ascii && b.ascii || a.unicode && b.unicode ||
    a.template && b.template

/-- Does a flag choose the character classes? -/
def hasType (a : Flags) : Bool := a.ascii || a.unicode

/-- The flags inside a group that turns some on and some off. -/
def inside (a on off : Flags) : Flags :=
  let a' := if on.hasType then { a with ascii := false, unicode := false } else a
  (a'.union on).without off

end Flags

inductive Anchor where
  | lineStart
  | lineEnd
  | textStart
  | textEnd
  | boundary
  | noBoundary
deriving DecidableEq, Repr

inductive Category where
  | digit
  | space
  | word
deriving DecidableEq, Repr

/-- Code points are numbers here, as an escape can name one that is no character. -/
inductive SetItem where
  | char (n : Nat)
  | range (low high : Nat)
  | category (c : Category) (negated : Bool)
deriving DecidableEq, Repr

inductive Mode where
  | greedy
  | lazy
  | possessive
deriving DecidableEq, Repr

inductive Node where
  | set (negated : Bool) (items : List SetItem)
  | any
  | anchor (a : Anchor)
  | branch (alternatives : List (List Node))
  /-- A group, numbered if it captures. -/
  | group (index : Option Nat) (on off : Flags) (body : List Node)
  | atomic (body : List Node)
  | repeated (mode : Mode) (min : Nat) (max : Option Nat) (body : List Node)
  /-- What a group captured, once more. -/
  | backReference (group : Nat)
  | lookAhead (negated : Bool) (body : List Node)
  /-- The body with the least and greatest number of characters that it takes. -/
  | lookBehind (negated : Bool) (width : Nat × Nat) (body : List Node)
  | conditional (group : Nat) (yes no : List Node)

namespace Node

def char (n : Nat) : Node := .set false [.char n]

/-- Stands for no bound. -/
def maxWidth : Nat := Nat.pow 2 64

def addWidth (a b : Nat × Nat) : Nat × Nat :=
  (min (a.1 + b.1) maxWidth, min (a.2 + b.2) maxWidth)

def eitherWidth (a b : Nat × Nat) : Nat × Nat := (min a.1 b.1, max a.2 b.2)

mutual
/-- The least and greatest number of characters that a node takes, given those of the groups. -/
def width (groups : List (Option (Nat × Nat))) : Node → Nat × Nat
  | .set _ _ => (1, 1)
  | .any => (1, 1)
  | .anchor _ => (0, 0)
  | .branch alternatives => widthSome groups alternatives
  | .group _ _ _ body => widthAll groups body
  | .atomic body => widthAll groups body
  | .repeated _ low high body =>
      let w := widthAll groups body
      (w.1 * low,
        match high with
        | some n => w.2 * n
        | none => if w.2 = 0 then 0 else maxWidth)
  | .backReference g => (groups[g]?.getD none).getD (0, 0)
  | .lookAhead _ _ => (0, 0)
  | .lookBehind _ _ _ => (0, 0)
  | .conditional _ yes no => eitherWidth (widthAll groups yes) (widthAll groups no)

def widthAll (groups : List (Option (Nat × Nat))) : List Node → Nat × Nat
  | [] => (0, 0)
  | x :: xs => addWidth (width groups x) (widthAll groups xs)

def widthSome (groups : List (Option (Nat × Nat))) : List (List Node) → Nat × Nat
  | [] => (maxWidth, 0)
  | xs :: rest => eitherWidth (widthAll groups xs) (widthSome groups rest)
end

end Node

end CommandShell.Pattern
