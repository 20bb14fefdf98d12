import CommandShell.Text.Quoted

/-! # Values

What is passed to applications and given back by them: a text, or a list of values. Lists stand
for lines that come from elsewhere than a file. -/

namespace CommandShell

inductive Value where
  | text (t : Text)
  | list (xs : List Value)
deriving Inhabited

namespace Value

mutual
def same : Value → Value → Bool
  | .text s, .text t => s = t
  | .list xs, .list ys => sameAll xs ys
  | _, _ => false

def sameAll : List Value → List Value → Bool
  | [], [] => true
  | x :: xs, y :: ys => same x y && sameAll xs ys
  | _, _ => false
end

mutual
theorem same_iff : ∀ a b : Value, same a b = true ↔ a = b
  | .text s, .text t => by simp [same]
  | .list xs, .list ys => by simp [same, sameAll_iff xs ys]
  | .text _, .list _ => by simp [same]
  | .list _, .text _ => by simp [same]

theorem sameAll_iff : ∀ xs ys : List Value, sameAll xs ys = true ↔ xs = ys
  | [], [] => by simp [sameAll]
  | [], _ :: _ => by simp [sameAll]
  | _ :: _, [] => by simp [sameAll]
  | x :: xs, y :: ys => by simp [sameAll, same_iff x y, sameAll_iff xs ys]
end

instance : DecidableEq Value := fun a b => decidable_of_iff _ (same_iff a b)

/-- Is the value this text? -/
def isText (t : Text) : Value → Bool
  | .text s => s = t
  | .list _ => false

/-- The name of a value's sort in messages. -/
def sortName : Value → Text
  | .text _ => "str".toList
  | .list _ => "list".toList

def size : Value → Nat
  | .text t => t.length
  | .list xs => xs.length

/-- Does a text hold the character, or a list the text of that one character? -/
def has (c : Char) : Value → Bool
  | .text t => t.contains c
  | .list xs => xs.any (isText [c])

/-- Without the first and the last character or member. -/
def inner : Value → Value
  | .text t => .text (t.drop 1).dropLast
  | .list xs => .list (xs.drop 1).dropLast

/-- Without the last character or member. -/
def dropLast : Value → Value
  | .text t => .text t.dropLast
  | .list xs => .list xs.dropLast

/-- The characters as texts, or the members. -/
def members : Value → List Value
  | .text t => t.map (fun c => .text [c])
  | .list xs => xs

mutual
/-- A value as it is shown inside a list. -/
def quoted : Value → Text
  | .text t => Text.quoted t
  | .list xs => '[' :: quotedAll xs ++ [']']

def quotedAll : List Value → Text
  | [] => []
  | [x] => quoted x
  | x :: y :: rest => quoted x ++ ", ".toList ++ quotedAll (y :: rest)
end

/-- A value as a text: a text is itself. -/
def shown : Value → Text
  | .text t => t
  | .list xs => quoted (.list xs)

end Value

end CommandShell
