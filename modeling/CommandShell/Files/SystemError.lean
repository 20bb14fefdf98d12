import CommandShell.Text.Quoted

/-! # Refusals of the file system

Why the file system refuses an operation on a path, with number and wording. -/

namespace CommandShell

inductive SystemError where
  | notFound
  | alreadyThere
  | notFolder
  | isFolder
  | nameTooLong
deriving DecidableEq, Repr

namespace SystemError

def number : SystemError → Nat
  | .notFound => 2
  | .alreadyThere => 17
  | .notFolder => 20
  | .isFolder => 21
  | .nameTooLong => 36

def reason : SystemError → Text
  | .notFound => "No such file or directory".toList
  | .alreadyThere => "File exists".toList
  | .notFolder => "Not a directory".toList
  | .isFolder => "Is a directory".toList
  | .nameTooLong => "File name too long".toList

def message (e : SystemError) (path : Text) : Text :=
  "[Errno ".toList ++ Text.ofNat e.number ++ "] ".toList ++ e.reason ++ ": ".toList ++
    Text.quoted path

end SystemError

end CommandShell
