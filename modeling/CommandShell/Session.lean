import CommandShell.Line

/-! # Sessions

A shell run with arguments runs one line; without, it reads lines until the input ends. -/

namespace CommandShell.Session

/-- Print every item of the output. -/
def printAll (out : List Value) (w : World) : World := w.print (out.flatMap Value.shown)

/-- Run a line and print its output, unless it fails. -/
def runAndPrint (line : Text) (w : World) : World × Option Fault :=
  match runLine line [] w with
  | (_, w', some e) => (w', some e)
  | (out, w', none) => (printAll out w', none)

/-- Run the line given by arguments. -/
def withArguments (args : List Text) (w : World) : World × Option Fault :=
  match args with
  | [flag, line] =>
      if flag = "-c".toList then runAndPrint line w else (w, some (.unexpectedArgument flag))
  | _ => (w, some .wrongArgumentCount)

def prompt (w : World) : Text := w.hereText ++ "> ".toList

/-- Run lines one after another, with a prompt before each, up to the first failure; the end of
the input is one. -/
def interactive : List Text → World → World × Option Fault
  | [], w => (w.print (prompt w), some .endOfInput)
  | line :: rest, w =>
      match runAndPrint line (w.print (prompt w)) with
      | (w', some e) => (w', some e)
      | (w', none) => interactive rest w'

/-- The lines of an input, without their line feeds. -/
def inputLines (t : Text) : List Text := (Text.lines t).map (fun l => l.filter (· ≠ '\n'))

def start (args : List Text) (input : Text) (w : World) : World × Option Fault :=
  if args.isEmpty then interactive (inputLines input) w else withArguments args w

end CommandShell.Session
