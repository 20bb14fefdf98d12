import CommandShell.Text.Utf8

/-! # Content of a file

A file holds a text, or octets that are none. -/

namespace CommandShell

inductive Content where
  | text (t : Text)
  /-- Octets that are no UTF-8. -/
  | octets (bs : List Nat)
deriving DecidableEq, Repr

namespace Content

def ofOctets (bs : List Nat) : Content :=
  match Text.decode bs with
  | .ok t => .text t
  | .error _ => .octets bs

def toOctets : Content → List Nat
  | .text t => Text.encode t
  | .octets bs => bs

/-- The content with a text written after it. -/
def append : Content → Text → Content
  | .text s, t => .text (s ++ t)
  | .octets bs, t => ofOctets (bs ++ Text.encode t)

/-- The lines as they are read: every line break is a line feed. -/
def lines : Content → Except Text.DecodeFault (List Text)
  | .text t => .ok (Text.lines (Text.unifyBreaks t))
  | .octets bs => (Text.decode bs).map (fun t => Text.lines (Text.unifyBreaks t))

end Content

end CommandShell
