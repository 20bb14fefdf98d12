import CommandShell.Files.Entry

/-! # Paths

A path is a text in which slashes part the names. -/

namespace CommandShell.Path

/-- The names of a path; empty ones come from slashes that stand together or at an end. -/
def names (p : Text) : List Text := Text.splitOnMark '/' p

def isAbsolute (p : Text) : Bool := p.head? = some '/'

/-- A zero character can be in no path. -/
def hasZero (p : Text) : Bool := p.any (fun c => c.toNat = 0)

/-- The part after the last slash. -/
def lastName (p : Text) : Text := (p.reverse.takeWhile (· ≠ '/')).reverse

/-- Without the slashes at the end. -/
def dropSlashes (p : Text) : Text := (p.reverse.dropWhile (· = '/')).reverse

/-- The part before the last slash, without slashes at its end unless it has only slashes. -/
def parent (p : Text) : Text :=
  let head := (p.reverse.dropWhile (· ≠ '/')).reverse
  if head.all (· = '/') then head else dropSlashes head

/-- One path after another. -/
def join (a b : Text) : Text :=
  if isAbsolute b then b
  else if a.isEmpty || a.getLast? = some '/' then a ++ b
  else a ++ '/' :: b

/-- The text of a place seen from the top. -/
def ofPlace : Place → Text
  | [] => []
  | [n] => n
  | n :: ns => n ++ '/' :: ofPlace ns

end CommandShell.Path
