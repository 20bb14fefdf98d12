import CommandShell.Grammar.Basic

/-! # Trees

The tree of a text: rules as nodes and tokens as leaves. A token that was passed over, or
one that had to be supposed, is a leaf of its own sort. -/

namespace CommandShell

inductive Tree where
  | node (r : Rule) (kids : List Tree)
  | leaf (t : Token)
  /-- A token that was read and does not belong here. -/
  | skipped (t : Token)
  /-- A token that should have been here. -/
  | missing (k : Kind)

namespace Tree

/-- The text that a supposed token shows. -/
def missingText (k : Kind) : Text :=
  "<missing ".toList ++ (if k = .finish then "EOF".toList else k.name) ++ ">".toList

def kids : Tree → List Tree
  | .node _ ts => ts
  | _ => []

def rule? : Tree → Option Rule
  | .node r _ => some r
  | _ => none

/-- The kind of the token at a leaf of any sort. -/
def kind? : Tree → Option Kind
  | .node _ _ => none
  | .leaf t => some t.kind
  | .skipped t => some t.kind
  | .missing k => some k

mutual
/-- The tokens read, left to right. -/
def tokens : Tree → List Token
  | .node _ ts => tokensAll ts
  | .leaf t => [t]
  | .skipped t => [t]
  | .missing _ => []

def tokensAll : List Tree → List Token
  | [] => []
  | t :: ts => tokens t ++ tokensAll ts
end

mutual
/-- The text of a tree: that of all its leaves. -/
def text : Tree → Text
  | .node _ ts => textAll ts
  | .leaf t => t.text
  | .skipped t => t.text
  | .missing k => missingText k

def textAll : List Tree → Text
  | [] => []
  | t :: ts => text t ++ textAll ts
end

@[simp] theorem tokens_node (r : Rule) (ts : List Tree) : tokens (.node r ts) = tokensAll ts := rfl

@[simp] theorem tokens_leaf (t : Token) : tokens (.leaf t) = [t] := rfl

@[simp] theorem tokens_skipped (t : Token) : tokens (.skipped t) = [t] := rfl

@[simp] theorem tokens_missing (k : Kind) : tokens (.missing k) = [] := rfl

@[simp] theorem tokensAll_nil : tokensAll [] = [] := rfl

@[simp] theorem tokensAll_cons (t : Tree) (ts : List Tree) :
    tokensAll (t :: ts) = tokens t ++ tokensAll ts := rfl

@[simp] theorem text_node (r : Rule) (ts : List Tree) : text (.node r ts) = textAll ts := rfl

@[simp] theorem text_leaf (t : Token) : text (.leaf t) = t.text := rfl

@[simp] theorem textAll_nil : textAll [] = [] := rfl

@[simp] theorem textAll_cons (t : Tree) (ts : List Tree) :
    textAll (t :: ts) = text t ++ textAll ts := rfl

/-- The children that are nodes of a rule. -/
def nodesOf (r : Rule) (t : Tree) : List Tree := t.kids.filter (fun k => k.rule? = some r)

/-- The children that are tokens of a kind. -/
def leavesOf (k : Kind) (t : Tree) : List Tree := t.kids.filter (fun c => c.kind? = some k)

/-- Go down to the child with each index in turn. -/
def descend : List Nat → Tree → Option Tree
  | [], t => some t
  | i :: is, t => t.kids[i]?.bind (descend is)

mutual
/-- All that the leaves tell, left to right. -/
def leafTexts : Tree → List Text
  | .node _ ts => leafTextsAll ts
  | .leaf t => [t.text]
  | .skipped t => ['!' :: t.text]
  | .missing k => ['!' :: missingText k]

def leafTextsAll : List Tree → List Text
  | [] => []
  | t :: ts => leafTexts t ++ leafTextsAll ts
end

mutual
/-- What the last child tells, all the way down; nothing for a node without children. -/
def lastText? : Tree → Option Text
  | .node _ ts => lastTextOf none ts
  | .leaf t => some t.text
  | .skipped t => some ('!' :: t.text)
  | .missing k => some ('!' :: missingText k)

def lastTextOf : Option Text → List Tree → Option Text
  | r, [] => r
  | _, t :: ts => lastTextOf (lastText? t) ts
end

end Tree

end CommandShell
