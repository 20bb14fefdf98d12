import CommandShell.Token.Basic

/-! # Complaints

What the reading of a text has to say about it, with the wording of each complaint. -/

namespace CommandShell

/-- The cause of a complaint. Kinds are those that could have stood there. -/
inductive Trouble where
  /-- A token too many. -/
  | extraneous (seen : Text) (expected : List Kind)
  /-- A token is not there. -/
  | missing (expected : List Kind) (seen : Text)
  | mismatched (seen : Text) (expected : List Kind)
  /-- No way to go on after the text. -/
  | noWay (seen : Text)
deriving DecidableEq, Repr

/-- A complaint about the token at a line and column. -/
structure Complaint where
  line : Nat
  column : Nat
  trouble : Trouble
deriving DecidableEq, Repr

namespace Trouble

/-- Quoted, with line breaks and tabs made visible. -/
def shown (t : Text) : Text :=
  "'".toList ++ t.flatMap (fun c =>
    if c = '\n' then "\\n".toList
    else if c = '\r' then "\\r".toList
    else if c = '\t' then "\\t".toList
    else [c]) ++ "'".toList

def separated : List Text → Text
  | [] => []
  | [t] => t
  | t :: ts => t ++ ", ".toList ++ separated ts

/-- Several kinds stand in braces, each once and in the order of all kinds. -/
def kinds (ks : List Kind) : Text :=
  match (Kind.all.filter ks.contains).map Kind.name with
  | [t] => t
  | ts => "\x7b".toList ++ separated ts ++ "\x7d".toList

def message : Trouble → Text
  | .extraneous seen expected =>
      "extraneous input ".toList ++ shown seen ++ " expecting ".toList ++ kinds expected
  | .missing expected seen =>
      "missing ".toList ++ kinds expected ++ " at ".toList ++ shown seen
  | .mismatched seen expected =>
      "mismatched input ".toList ++ shown seen ++ " expecting ".toList ++ kinds expected
  | .noWay seen => "no viable alternative at input ".toList ++ shown seen

end Trouble

/-- The line that is printed for a complaint. -/
def Complaint.report (c : Complaint) : Text :=
  "line ".toList ++ Text.ofNat c.line ++ ":".toList ++ Text.ofNat c.column ++ " ".toList ++
    c.trouble.message ++ "\n".toList

end CommandShell
