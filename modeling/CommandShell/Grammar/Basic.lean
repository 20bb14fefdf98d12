import CommandShell.Token.Basic

/-! # Grammar

A rule is a list of items. What is left of a rule while it is read is again a list of items,
so a list of items is both the right side of a rule and a place inside one. -/

namespace CommandShell

inductive Rule where
  | line
  | command
  | pipe
  | call
  | atom
  | argument
  | redirection
  | unquoted
  | quoted
  | singleQuoted
  | backQuoted
  | doubleQuoted
deriving DecidableEq, Repr

namespace Rule

def name : Rule → Text
  | .line => "line".toList
  | .command => "command".toList
  | .pipe => "pipe".toList
  | .call => "call".toList
  | .atom => "atom".toList
  | .argument => "argument".toList
  | .redirection => "redirection".toList
  | .unquoted => "unquoted".toList
  | .quoted => "quoted".toList
  | .singleQuoted => "single_quoted".toList
  | .backQuoted => "backquoted".toList
  | .doubleQuoted => "double_quoted".toList

def all : List Rule :=
  [.line, .command, .pipe, .call, .atom, .argument, .redirection, .unquoted, .quoted,
    .singleQuoted, .backQuoted, .doubleQuoted]

def ofName? (t : Text) : Option Rule := all.find? (fun r => r.name = t)

theorem ofName?_name (r : Rule) : ofName? r.name = some r := by cases r <;> decide

end Rule

/-- How far a decision has to look ahead. -/
inductive Guide where
  /-- The next token decides. -/
  | one
  /-- The next two tokens decide. -/
  | two
  /-- Is the next call followed by a bar? -/
  | callOrPipe
  /-- Is the next piece of an argument quoted? -/
  | piece
  /-- Which quotation is next? -/
  | quotation
  /-- What stands next between double quotes? -/
  | inside
deriving DecidableEq, Repr

inductive Item where
  | token (k : Kind)
  | oneOf (ks : List Kind)
  /-- A rule, read at a binding level. -/
  | rule (r : Rule) (level : Nat)
  | choice (g : Guide) (alternatives : List (List Item))
  | optional (g : Guide) (body : List Item)
  /-- Any number of rounds of the body. -/
  | loop (g : Guide) (body : List Item)
  /-- The same after at least one round. -/
  | again (g : Guide) (body : List Item)
  /-- What has been read of the rule becomes its first part. Open to binding levels up to
  `limit`. -/
  | fold (limit : Nat)

namespace Item

mutual
/-- Do two items read the same? -/
def same : Item → Item → Bool
  | .token k, .token l => k = l
  | .oneOf ks, .oneOf ls => ks = ls
  | .rule r n, .rule s m => r = s && n = m
  | .choice g xs, .choice h ys => g = h && sameAlternatives xs ys
  | .optional g xs, .optional h ys => g = h && sameAll xs ys
  | .loop g xs, .loop h ys => g = h && sameAll xs ys
  | .again g xs, .again h ys => g = h && sameAll xs ys
  | .fold n, .fold m => n = m
  | _, _ => false

def sameAll : List Item → List Item → Bool
  | [], [] => true
  | x :: xs, y :: ys => same x y && sameAll xs ys
  | _, _ => false

def sameAlternatives : List (List Item) → List (List Item) → Bool
  | [], [] => true
  | x :: xs, y :: ys => sameAll x y && sameAlternatives xs ys
  | _, _ => false
end

end Item

namespace Grammar

/-- What may stand between the words of a call. -/
def gap : Item := .oneOf [.blank, .lineBreak]

/-- The highest binding level at which a command may go on after a `;`. -/
def commandLimit : Nat := 2

/-- The highest binding level at which a pipe may go on after another `|`. -/
def pipeLimit : Nat := 1

/-- One piece of an argument. -/
def piece : Item := .choice .piece [[.rule .quoted 0], [.rule .unquoted 0]]

def body : Rule → List Item
  | .line => [.choice .one [[.rule .command 0], [.token .finish]]]
  | .command =>
      [.choice .callOrPipe [[.rule .pipe 0], [.rule .call 0]],
        .loop .one [.fold commandLimit, .token .semicolon, .rule .command (commandLimit + 1)]]
  | .pipe =>
      [.rule .call 0, .token .bar, .rule .call 0,
        .loop .one [.fold pipeLimit, .token .bar, .rule .call 0]]
  | .call =>
      [.optional .one [gap], .loop .one [.rule .redirection 0, gap], .rule .argument 0,
        .loop .two [gap, .rule .atom 0], .optional .one [gap]]
  | .atom => [.choice .one [[.rule .redirection 0], [.rule .argument 0]]]
  | .argument => [piece, .again .one [piece]]
  | .redirection =>
      [.choice .one
        [[.token .less, .optional .one [.token .blank], .rule .argument 0],
          [.optional .two [.token .greater], .token .greater, .optional .one [.token .blank],
            .rule .argument 0]]]
  | .unquoted => [.token .word]
  | .quoted =>
      [.choice .quotation [[.rule .singleQuoted 0], [.rule .doubleQuoted 0], [.rule .backQuoted 0]]]
  | .singleQuoted =>
      [.token .singleMark,
        .loop .one
          [.oneOf [.semicolon, .bar, .less, .greater, .doubleMark, .backMark, .blank, .word]],
        .token .singleMark]
  | .backQuoted =>
      [.loop .one [.token .word], .token .backMark,
        .loop .one
          [.oneOf [.semicolon, .bar, .less, .greater, .singleMark, .doubleMark, .blank, .word]],
        .token .backMark, .loop .one [.token .word]]
  | .doubleQuoted =>
      [.loop .one [.token .word], .token .doubleMark,
        .loop .one
          [.choice .inside
            [[.rule .backQuoted 0], [.token .word], [.token .semicolon], [.token .bar],
              [.token .less], [.token .greater], [.token .singleMark], [.token .blank]]],
        .token .doubleMark, .loop .one [.token .word]]

/-- The kinds that can start a rule. No rule is empty. -/
def starts : Rule → List Kind
  | .line =>
      [.finish, .less, .greater, .singleMark, .doubleMark, .backMark, .blank, .word, .lineBreak]
  | .command | .pipe | .call =>
      [.less, .greater, .singleMark, .doubleMark, .backMark, .blank, .word, .lineBreak]
  | .atom => [.less, .greater, .singleMark, .doubleMark, .backMark, .word]
  | .argument | .quoted => [.singleMark, .doubleMark, .backMark, .word]
  | .redirection => [.less, .greater]
  | .unquoted => [.word]
  | .singleQuoted => [.singleMark]
  | .backQuoted => [.backMark, .word]
  | .doubleQuoted => [.doubleMark, .word]

mutual
/-- Can the item be read without reading a token? -/
def canSkip : Item → Bool
  | .token _ => false
  | .oneOf _ => false
  | .rule _ _ => false
  | .choice _ alternatives => canSkipSome alternatives
  | .optional _ _ => true
  | .loop _ _ => true
  | .again _ _ => true
  | .fold _ => true

def canSkipAll : List Item → Bool
  | [] => true
  | x :: xs => canSkip x && canSkipAll xs

def canSkipSome : List (List Item) → Bool
  | [] => false
  | xs :: rest => canSkipAll xs || canSkipSome rest
end

mutual
/-- The kinds of token with which an item can start. -/
def first : Item → List Kind
  | .token k => [k]
  | .oneOf ks => ks
  | .rule r _ => starts r
  | .choice _ alternatives => firstSome alternatives
  | .optional _ xs => firstAll xs
  | .loop _ xs => firstAll xs
  | .again _ xs => firstAll xs
  | .fold _ => []

def firstAll : List Item → List Kind
  | [] => []
  | x :: xs => first x ++ (if canSkip x then firstAll xs else [])

def firstSome : List (List Item) → List Kind
  | [] => []
  | xs :: rest => firstAll xs ++ firstSome rest
end

/-- The table of starts is the one that the rules themselves give. -/
theorem mem_starts_iff (r : Rule) (k : Kind) : k ∈ starts r ↔ k ∈ firstAll (body r) := by
  cases r <;> cases k <;> decide

theorem canSkipAll_body (r : Rule) : canSkipAll (body r) = false := by cases r <;> rfl

end Grammar

end CommandShell
