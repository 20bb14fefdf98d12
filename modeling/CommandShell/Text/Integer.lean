import CommandShell.Text.Blank
import CommandShell.Text.Digit
import CommandShell.Text.Quoted

/-! # Reading integers

Blanks around, a sign, and decimal digits of any script, single underscores between them. -/

namespace CommandShell.Text

/-- Why a text is no integer. -/
inductive IntegerFault where
  | invalid (t : Text)
  /-- More digits than are read. -/
  | tooLong (digits : Nat)
deriving DecidableEq, Repr

/-- The most digits that are read. -/
def digitLimit : Nat := 4300

def IntegerFault.message : IntegerFault → Text
  | .invalid t =>
      "invalid literal for int() with base 10: ".toList ++ (quoted t).take 200
  | .tooLong digits =>
      "Exceeds the limit (4300 digits) for integer string conversion: value has ".toList ++
        ofNat digits ++
        " digits; use sys.set_int_max_str_digits() to increase the limit".toList

/-- The four information separators are blank elsewhere, but not around an integer. -/
def isIntegerBlank (c : Char) : Bool := isBlank c && !(28 ≤ c.toNat && c.toNat ≤ 31)

def isNumeral (c : Char) : Bool := isDigit c || c = '_'

/-- A digit first and last, and no two underscores together. -/
def wellSpaced : Text → Bool
  | [] => false
  | [c] => isDigit c
  | c :: d :: cs => if isDigit c then wellSpaced' (d :: cs) else false
where
  wellSpaced' : Text → Bool
    | [] => true
    | [c] => isDigit c
    | c :: d :: cs =>
        if isDigit c then wellSpaced' (d :: cs) else isDigit d && wellSpaced' (d :: cs)

def numeralValue (t : Text) : Nat :=
  (t.filterMap digit?).foldl (fun n d => 10 * n + d) 0

/-- Is the text negative, and what follows the sign? -/
def splitSign : Text → Bool × Text
  | '-' :: cs => (true, cs)
  | '+' :: cs => (false, cs)
  | cs => (false, cs)

def integer? (t : Text) : Except IntegerFault Int :=
  let (negative, body) := splitSign (t.dropWhile isIntegerBlank)
  let numeral := body.takeWhile isNumeral
  let rest := body.dropWhile isNumeral
  let digits := numeral.countP isDigit
  if !wellSpaced numeral then .error (.invalid t)
  else if digitLimit < digits then .error (.tooLong digits)
  else if !rest.all isIntegerBlank then .error (.invalid t)
  else .ok (if negative then -(numeralValue numeral : Int) else numeralValue numeral)

end CommandShell.Text
