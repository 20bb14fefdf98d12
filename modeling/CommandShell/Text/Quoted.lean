import CommandShell.Text.Printable

/-! # Quoted text

A text between quotes, as it is shown in messages: single quotes unless the text holds a single
and no double one; what cannot be printed is shown by its number. -/

namespace CommandShell.Text

/-- The last `width` hexadecimal digits of a number. -/
def hexDigits : Nat → Nat → Text
  | 0, _ => []
  | width + 1, n => hexDigits width (n / 16) ++ [Nat.digitChar (n % 16)]

/-- One character between quotes `q`. -/
def quoteChar (q : Char) (c : Char) : Text :=
  if c = q ∨ c = backslash then [backslash, c]
  else if c = '\n' then "\\n".toList
  else if c = '\r' then "\\r".toList
  else if c = '\t' then "\\t".toList
  else if isPrintable c then [c]
  else if c.toNat < 256 then "\\x".toList ++ hexDigits 2 c.toNat
  else if c.toNat < 65536 then "\\u".toList ++ hexDigits 4 c.toNat
  else "\\U".toList ++ hexDigits 8 c.toNat

/-- The quotes that a text is shown in. -/
def quoteFor (t : Text) : Char :=
  if t.contains singleQuote && !t.contains doubleQuote then doubleQuote else singleQuote

def quoted (t : Text) : Text :=
  let q := quoteFor t
  q :: t.flatMap (quoteChar q) ++ [q]

end CommandShell.Text
