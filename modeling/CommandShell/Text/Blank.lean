import CommandShell.Text.Ranges

/-! # Blank characters

White space, and what is cut off or split at it. -/

namespace CommandShell.Text

def blankRanges : List (Nat × Nat) :=
  [(9, 13), (28, 32), (133, 133), (160, 160), (5760, 5760), (8192, 8202), (8232, 8233),
    (8239, 8239), (8287, 8287), (12288, 12288)]

def isBlank (c : Char) : Bool := inRanges c.toNat blankRanges

/-- Without the characters at both ends that satisfy the test. -/
def trim (p : Char → Bool) (t : Text) : Text :=
  ((t.dropWhile p).reverse.dropWhile p).reverse

/-- Without the blanks at both ends. -/
def strip (t : Text) : Text := trim isBlank t

/-- The longest pieces without blanks. -/
def words : Text → List Text
  | [] => []
  | [c] => if isBlank c then [] else [[c]]
  | c :: d :: cs =>
      if isBlank c then words (d :: cs)
      else if isBlank d then [c] :: words (d :: cs)
      else match words (d :: cs) with
        | [] => [[c]]
        | w :: ws => (c :: w) :: ws

end CommandShell.Text
