import CommandShell.Application.Effect
import CommandShell.Pattern.Matcher

/-! # Searching lines for a pattern

On a terminal the pattern, read as plain text, is highlighted in the lines found. A line is tried by
`match_pattern` (`matchLine`). -/

namespace CommandShell.Application

/-- What switches the highlighting on. -/
def highlightOn : Text := Char.ofNat 27 :: "[96m".toList

/-- What switches it off. -/
def highlightOff : Text := Char.ofNat 27 :: "[39m".toList

/-- Every occurrence of the pattern as plain text is marked. -/
def highlight (pattern line : Text) : Text :=
  Text.replaceAll pattern (highlightOn ++ pattern ++ highlightOff) line

/-- The line as it is given out, if it fits the pattern. -/
def matchLine (terminal : Bool) (pattern line : Value) : Except Fault (Option Text) :=
  match pattern with
  | .list _ => .error .listAsKey
  | .text p =>
      match Pattern.compile p with
      | .error e => .error (.pattern p e)
      | .ok compiled =>
          match line with
          | .list _ => .error .listAsLine
          | .text t =>
              .ok (if compiled.matches t then some (if terminal then highlight p t else t)
                else none)

/-- The line if it fits and is not empty, after `before`. -/
def found (terminal : Bool) (pattern : Value) (before : Text) (line : Value) : Yield :=
  match matchLine terminal pattern line with
  | .error e => ⟨[], some e⟩
  | .ok none => ⟨[], none⟩
  | .ok (some t) => if t.isEmpty then ⟨[], none⟩ else ⟨[.text (before ++ t)], none⟩

/-- The lines that fit in one file, after its name if there are `several`. -/
def foundIn (w : World) (pattern : Value) (several : Bool) (file : Value) : Yield :=
  match w.openFile file with
  | .error e => ⟨[], some e⟩
  | .ok lines =>
      let before := if several then file.shown ++ [':'] else []
      Yield.each (found w.terminal pattern before) lines

def runGrep (args : List Value) (w : World) : Effect :=
  match refuseFlag .noFlags args with
  | .error e => .failed args w e
  | .ok () =>
      match args with
      | [] => .failed args w .listIndex
      | pattern :: rest =>
          match sourceItems rest with
          | .error e => .failed rest w e
          | .ok (lines, true) =>
              .ofYield rest w (Yield.each (found w.terminal pattern []) lines)
          | .ok (files, false) =>
              .ofYield rest w (Yield.each (foundIn w pattern (1 < files.length)) files)

end CommandShell.Application
