import CommandShell.Pattern.CaseFolding
import CommandShell.Pattern.Reader
import CommandShell.Text.Blank

/-! # Matching

A node is matched from a cursor and passes each way it can end on to what comes after, in order,
until one of them succeeds. Loops end because a round that takes nothing is not followed by
another. -/

namespace CommandShell.Pattern

/-- A place in a line, with what the groups have captured, the newest first. -/
structure Cursor where
  /-- What comes before, the nearest first. -/
  before : Text
  rest : Text
  position : Nat
  groups : List (Nat × Text)

namespace Cursor

def start (line : Text) : Cursor := ⟨[], line, 0, []⟩

/-- Go on by `n` characters. -/
def forward (n : Nat) (c : Cursor) : Cursor :=
  { c with
    before := (c.rest.take n).reverse ++ c.before
    rest := c.rest.drop n
    position := c.position + n }

/-- Go back by `n` characters. -/
def backward (n : Nat) (c : Cursor) : Cursor :=
  { c with
    before := c.before.drop n
    rest := (c.before.take n).reverse ++ c.rest
    position := c.position - n }

/-- What lies between two cursors becomes what a group captured. -/
def capture (index : Option Nat) (opened c : Cursor) : Cursor :=
  match index with
  | none => c
  | some g => { c with groups := (g, opened.rest.take (c.position - opened.position)) :: c.groups }

end Cursor

def Category.test (ascii : Bool) : Category → Char → Bool
  | .digit, c => if ascii then c.isDigit else Text.isDigit c
  | .space, c => if ascii then isPatternSpace c else Text.isBlank c
  | .word, c => if ascii then c.isAlphanum || c = '_' else Text.isWordCharacter c

def SetItem.test (f : Flags) : SetItem → Char → Bool
  | .char n, c => if f.ignoreCase then foldEqual f.ascii c.toNat n else c.toNat = n
  | .range low high, c =>
      if f.ignoreCase then foldInRange f.ascii c.toNat low high
      else low ≤ c.toNat && c.toNat ≤ high
  | .category k negated, c => k.test f.ascii c != negated

/-- Are the two characters around a place one in a word and one not? A missing one is not. -/
def wordEdge (f : Flags) (before rest : Text) : Bool :=
  before.head?.any (Category.word.test f.ascii) != rest.head?.any (Category.word.test f.ascii)

/-- An empty line has neither word boundaries nor places between them. -/
def Anchor.test (f : Flags) : Anchor → Text → Text → Bool
  | .lineStart, before, _ => before.isEmpty || (f.multiline && before.head? = some '\n')
  | .lineEnd, _, rest =>
      rest.isEmpty || rest = ['\n'] || (f.multiline && rest.head? = some '\n')
  | .textStart, before, _ => before.isEmpty
  | .textEnd, _, rest => rest.isEmpty
  | .boundary, before, rest =>
      !(before.isEmpty && rest.isEmpty) && wordEdge f before rest
  | .noBoundary, before, rest =>
      !(before.isEmpty && rest.isEmpty) && !wordEdge f before rest

/-- Does a text start with another, perhaps without regard to case? -/
def startsWith (f : Flags) : Text → Text → Bool
  | [], _ => true
  | _ :: _, [] => false
  | a :: as, b :: bs =>
      (if f.ignoreCase then fold f.ascii a.toNat = fold f.ascii b.toNat else a = b) &&
        startsWith f as bs

/-- What comes after a place: where it ends, if it succeeds. -/
abbrev After := Cursor → Option Cursor

abbrev Match := Cursor → After → Option Cursor

/-- At least `low` and at most `high` rounds, as many as possible first. -/
def greedyLoop (body : Match) (low : Nat) (high : Option Nat) (after : After) :
    Nat → Nat → Option Nat → Cursor → Option Cursor
  | 0, _, _, _ => none
  | n + 1, count, last, c =>
      if count < low then body c (greedyLoop body low high after n (count + 1) last)
      else
        let again :=
          if high.all (count < ·) && last ≠ some c.position then
            body c (greedyLoop body low high after n (count + 1) (some c.position))
          else none
        match again with
        | some r => some r
        | none => after c

/-- As few rounds as possible first. -/
def lazyLoop (body : Match) (low : Nat) (high : Option Nat) (after : After) :
    Nat → Nat → Option Nat → Cursor → Option Cursor
  | 0, _, _, _ => none
  | n + 1, count, last, c =>
      if count < low then body c (lazyLoop body low high after n (count + 1) last)
      else
        match after c with
        | some r => some r
        | none =>
            if high.all (count < ·) && last ≠ some c.position then
              body c (lazyLoop body low high after n (count + 1) (some c.position))
            else none

/-- As many rounds as possible, each in its first way. -/
def possessiveLoop (body : Match) (low : Nat) (high : Option Nat) :
    Nat → Nat → Option Nat → Cursor → Option Cursor
  | 0, _, _, _ => none
  | n + 1, count, last, c =>
      if count < low then
        match body c some with
        | some c' => possessiveLoop body low high n (count + 1) last c'
        | none => none
      else if high.all (count < ·) && last ≠ some c.position then
        match body c some with
        | some c' => possessiveLoop body low high n (count + 1) (some c.position) c'
        | none => some c
      else some c

mutual
def matchNode (f : Flags) : Node → Match
  | .set negated items, c, after =>
      match c.rest with
      | [] => none
      | x :: _ => if items.any (·.test f x) != negated then after (c.forward 1) else none
  | .any, c, after =>
      match c.rest with
      | [] => none
      | x :: _ => if f.dotAll || x ≠ '\n' then after (c.forward 1) else none
  | .anchor a, c, after => if a.test f c.before c.rest then after c else none
  | .branch alternatives, c, after => matchSome f alternatives c after
  | .group index on off body, c, after =>
      matchAll (f.inside on off) body c (fun c' => after (Cursor.capture index c c'))
  | .atomic body, c, after => (matchAll f body c some).bind after
  | .repeated mode low high body, c, after =>
      let fuel := low + c.rest.length + 2
      match mode with
      | .greedy => greedyLoop (fun c k => matchAll f body c k) low high after fuel 0 none c
      | .lazy => lazyLoop (fun c k => matchAll f body c k) low high after fuel 0 none c
      | .possessive =>
          (possessiveLoop (fun c k => matchAll f body c k) low high fuel 0 none c).bind after
  | .backReference g, c, after =>
      match c.groups.lookup g with
      | some t => if startsWith f t c.rest then after (c.forward t.length) else none
      | none => none
  | .lookAhead negated body, c, after =>
      match matchAll f body c some with
      | some c' => if negated then none else after { c with groups := c'.groups }
      | none => if negated then after c else none
  | .lookBehind negated width body, c, after =>
      let found := if c.position < width.1 then none else matchAll f body (c.backward width.1) some
      match found with
      | some c' => if negated then none else after { c with groups := c'.groups }
      | none => if negated then after c else none
  | .conditional g yes no, c, after =>
      if (c.groups.lookup g).isSome then matchAll f yes c after else matchAll f no c after

def matchAll (f : Flags) : List Node → Match
  | [], c, after => after c
  | x :: xs, c, after => matchNode f x c (fun c' => matchAll f xs c' after)

def matchSome (f : Flags) : List (List Node) → Match
  | [], _, _ => none
  | xs :: rest, c, after =>
      match matchAll f xs c after with
      | some r => some r
      | none => matchSome f rest c after
end

/-- Does a line start with something that the pattern describes? -/
def Compiled.matches (p : Compiled) (line : Text) : Bool :=
  (matchAll p.flags p.nodes (Cursor.start line) some).isSome

end CommandShell.Pattern
