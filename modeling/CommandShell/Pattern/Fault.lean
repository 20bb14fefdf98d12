import CommandShell.Text.Quoted

/-! # Faults of patterns

Why a pattern cannot be used, where in the pattern, and the wording. -/

namespace CommandShell.Pattern

inductive Reason where
  | danglingEscape
  | badEscape (escape : Text)
  | incompleteEscape (escape : Text)
  | octalTooLarge (escape : Text)
  | missingBrace
  | unknownCharacterName (name : Text)
  | unterminatedSet
  | badRange (low high : Text)
  | nothingToRepeat
  | multipleRepeat
  | minAboveMax
  | unexpectedEnd
  | unterminatedGroup
  | unterminatedComment
  | unbalanced
  | unknownExtension (extension : Text)
  | missingName (what : Text)
  | unterminatedName (closing : Char)
  | badGroupName (name : Text)
  | unknownGroupName (name : Text)
  | groupNameTaken (name : Text) (group old : Nat)
  | openGroup
  | sameLookBehind
  | noGroup (group : Nat)
  | groupZero
  | tooManyBranches
  | flagsNotFirst
  | localeFlag
  | mixedFlags
  | unknownFlag
  | missingFlagEnd
  | missingFlag
  | missingColon
  | turnsOnGlobal
  | turnsOffGlobal
  | turnsOffType
  | onAndOff
  | variableLookBehind
  | noRepeatHere (mode : Text)
  | tooDeep
deriving DecidableEq, Repr

def Reason.text : Reason → Text
  | .danglingEscape => "bad escape (end of pattern)".toList
  | .badEscape e => "bad escape ".toList ++ e
  | .incompleteEscape e => "incomplete escape ".toList ++ e
  | .octalTooLarge e => "octal escape value ".toList ++ e ++ " outside of range 0-0o377".toList
  | .missingBrace => "missing \x7b".toList
  | .unknownCharacterName n => "undefined character name ".toList ++ Text.quoted n
  | .unterminatedSet => "unterminated character set".toList
  | .badRange a b => "bad character range ".toList ++ a ++ "-".toList ++ b
  | .nothingToRepeat => "nothing to repeat".toList
  | .multipleRepeat => "multiple repeat".toList
  | .minAboveMax => "min repeat greater than max repeat".toList
  | .unexpectedEnd => "unexpected end of pattern".toList
  | .unterminatedGroup => "missing ), unterminated subpattern".toList
  | .unterminatedComment => "missing ), unterminated comment".toList
  | .unbalanced => "unbalanced parenthesis".toList
  | .unknownExtension e => "unknown extension ?".toList ++ e
  | .missingName what => "missing ".toList ++ what
  | .unterminatedName c => "missing ".toList ++ [c] ++ ", unterminated name".toList
  | .badGroupName n => "bad character in group name ".toList ++ Text.quoted n
  | .unknownGroupName n => "unknown group name ".toList ++ Text.quoted n
  | .groupNameTaken n g old =>
      "redefinition of group name ".toList ++ Text.quoted n ++ " as group ".toList ++
        Text.ofNat g ++ "; was group ".toList ++ Text.ofNat old
  | .openGroup => "cannot refer to an open group".toList
  | .sameLookBehind => "cannot refer to group defined in the same lookbehind subpattern".toList
  | .noGroup g => "invalid group reference ".toList ++ Text.ofNat g
  | .groupZero => "bad group number".toList
  | .tooManyBranches => "conditional backref with more than two branches".toList
  | .flagsNotFirst => "global flags not at the start of the expression".toList
  | .localeFlag => "bad inline flags: cannot use 'L' flag with a str pattern".toList
  | .mixedFlags => "bad inline flags: flags 'a', 'u' and 'L' are incompatible".toList
  | .unknownFlag => "unknown flag".toList
  | .missingFlagEnd => "missing -, : or )".toList
  | .missingFlag => "missing flag".toList
  | .missingColon => "missing :".toList
  | .turnsOnGlobal => "bad inline flags: cannot turn on global flag".toList
  | .turnsOffGlobal => "bad inline flags: cannot turn off global flag".toList
  | .turnsOffType => "bad inline flags: cannot turn off flags 'a', 'u' and 'L'".toList
  | .onAndOff => "bad inline flags: flag turned on and off".toList
  | .variableLookBehind => "look-behind requires fixed-width pattern".toList
  | .noRepeatHere mode => "internal: unsupported template operator ".toList ++ mode
  | .tooDeep => "too many nested groups".toList

inductive Fault where
  /-- Something is wrong in the pattern, mostly at a known position. -/
  | malformed (r : Reason) (position : Option Nat)
  | repeatTooLarge
  /-- Flags for the whole pattern that exclude each other. -/
  | incompatibleFlags
deriving DecidableEq, Repr

/-- The position, and line and column if the pattern has several lines. -/
def whereText (pattern : Text) (position : Nat) : Text :=
  let before := pattern.take position
  let column := (before.reverse.takeWhile (· ≠ '\n')).length + 1
  " at position ".toList ++ Text.ofNat position ++
    if pattern.contains '\n' then
      " (line ".toList ++ Text.ofNat (before.count '\n' + 1) ++ ", column ".toList ++
        Text.ofNat column ++ ")".toList
    else []

def Fault.message (pattern : Text) : Fault → Text
  | .malformed r (some position) => r.text ++ whereText pattern position
  | .malformed r none => r.text
  | .repeatTooLarge => "the repetition number is too large".toList
  | .incompatibleFlags => "ASCII and UNICODE flags are incompatible".toList

end CommandShell.Pattern
