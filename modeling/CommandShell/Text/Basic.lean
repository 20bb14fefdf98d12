/-! # Text

A text is a list of code points, so lengths and positions count code points and every
function on texts is a function on lists. -/

namespace CommandShell

abbrev Text := List Char

namespace Text

/-- The single quote mark. -/
def singleQuote : Char := Char.ofNat 39

/-- The double quote mark. -/
def doubleQuote : Char := Char.ofNat 34

/-- The back quote mark. -/
def backQuote : Char := Char.ofNat 96

def backslash : Char := Char.ofNat 92

/-- Decimal digits of a natural number. -/
def ofNat (n : Nat) : Text := Nat.toDigits 10 n

/-- Code-point order, a proper beginning first. -/
def ble : Text → Text → Bool
  | [], _ => true
  | _ :: _, [] => false
  | a :: as, b :: bs =>
      if a.toNat < b.toNat then true
      else if b.toNat < a.toNat then false
      else ble as bs

/-- Every line with its line feed; the last line may lack one. -/
def lines : Text → List Text
  | [] => []
  | c :: cs =>
      if c = '\n' then ['\n'] :: lines cs
      else match lines cs with
        | [] => [[c]]
        | l :: ls => (c :: l) :: ls

theorem flatten_lines : ∀ t : Text, (lines t).flatten = t
  | [] => rfl
  | c :: cs => by
      have ih := flatten_lines cs
      by_cases h : c = '\n'
      · simp [lines, h, ih]
      · cases hl : lines cs with
        | nil => simp [lines, h, hl] at ih ⊢; exact ih
        | cons l ls => simp [lines, h, hl] at ih ⊢; exact ih

/-- Carriage returns, alone or before a line feed, read as one line feed. -/
def unifyBreaks : Text → Text
  | '\r' :: '\n' :: cs => '\n' :: unifyBreaks cs
  | '\r' :: cs => '\n' :: unifyBreaks cs
  | c :: cs => c :: unifyBreaks cs
  | [] => []

/-- Replaces occurrences found from the left; `skip` counts the characters of the
occurrence just replaced that are still to be passed over. -/
def replaceFrom (old new : Text) : Nat → Text → Text
  | _, [] => []
  | skip + 1, _ :: cs => replaceFrom old new skip cs
  | 0, c :: cs =>
      if old.isPrefixOf (c :: cs) then new ++ replaceFrom old new (old.length - 1) cs
      else c :: replaceFrom old new 0 cs

/-- Replaces every occurrence, left to right and without overlap. The empty text occurs
before every character and at the end. -/
def replaceAll (old new t : Text) : Text :=
  if old.isEmpty then new ++ t.flatMap (fun c => c :: new) else replaceFrom old new 0 t

/-- Splits at every `mark`: one part more than there are marks. -/
def splitOnMark (mark : Char) : Text → List Text
  | [] => [[]]
  | c :: cs =>
      if c = mark then [] :: splitOnMark mark cs
      else match splitOnMark mark cs with
        | [] => [[c]]
        | p :: ps => (c :: p) :: ps

end Text

end CommandShell
