import CommandShell.Text.Basic

/-! # Tokens

Ten kinds of token and the end of the text. A kind is either a mark, one character that is
always a token of its own, or a run: as many neighbours of one class as there are. -/

namespace CommandShell

inductive Kind where
  | finish
  | semicolon
  | bar
  | less
  | greater
  | singleMark
  | doubleMark
  | backMark
  | blank
  | word
  | lineBreak
deriving DecidableEq, Repr

namespace Kind

/-- All kinds, in the order in which sets of kinds are written. -/
def all : List Kind :=
  [.finish, .semicolon, .bar, .less, .greater, .singleMark, .doubleMark, .backMark,
    .blank, .word, .lineBreak]

/-- The kind of the token that a character belongs to. -/
def ofChar (c : Char) : Kind :=
  if c = ';' then .semicolon
  else if c = '|' then .bar
  else if c = '<' then .less
  else if c = '>' then .greater
  else if c = Text.singleQuote then .singleMark
  else if c = Text.doubleQuote then .doubleMark
  else if c = Text.backQuote then .backMark
  else if c = ' ' || c = '\t' then .blank
  else if c = '\r' || c = '\n' then .lineBreak
  else .word

/-- Runs join neighbours of one kind into one token. -/
def isRun : Kind → Bool
  | .blank | .word | .lineBreak => true
  | _ => false

/-- How a kind is named in messages. -/
def name : Kind → Text
  | .finish => "<EOF>".toList
  | .semicolon => "';'".toList
  | .bar => "'|'".toList
  | .less => "'<'".toList
  | .greater => "'>'".toList
  | .singleMark => "'''".toList
  | .doubleMark => "'\"'".toList
  | .backMark => "'`'".toList
  | .blank => "SPACE".toList
  | .word => "BASIC_TEXT".toList
  | .lineBreak => "LINE_BREAKS".toList

theorem mem_all (k : Kind) : k ∈ all := by cases k <;> decide

end Kind

/-- A token with the line (from 1) and column (from 0) at which it starts and the number of
code points before it. -/
structure Token where
  kind : Kind
  text : Text
  line : Nat
  column : Nat
  start : Nat
deriving DecidableEq, Repr

/-- Index of the last code point of a token that is not empty. -/
def Token.stop (t : Token) : Nat := t.start + t.text.length - 1

end CommandShell
