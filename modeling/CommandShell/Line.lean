import CommandShell.Script.Drafting

/-! # Lines

A line is drafted and then run, which is what `parse` does for `eval`. Lines between back quotes are
run while the line that they stand in is drafted. -/

namespace CommandShell

/-- Faults of indexing mean that the line could not be understood. -/
def Fault.ofDrafting : Fault → Fault
  | .listIndex => .notParsed
  | .textIndex => .notParsed
  | e => e

/-- Run a line, its output coming after `out`. -/
def runWith (run : Text → List Value → World → Running) (line : Text) (out : List Value)
    (w : World) : Running :=
  let c := draftWith run line w
  match c.commands with
  | .error e => (out, c.world, some e.ofDrafting)
  | .ok commands => (c.draft.script commands).run out c.world

/-- Run a line without back quotes: there is nothing between them to be run. -/
def runPlain (line : Text) (out : List Value) (w : World) : Running :=
  runWith (fun _ out w => (out, w, none)) line out w

/-- Run a line. A line between back quotes has none itself. -/
def runLine (line : Text) (out : List Value) (w : World) : Running := runWith runPlain line out w

/-- Turn a line into commands. -/
def draftLine (line : Text) (w : World) : Drafted := draftWith runPlain line w

end CommandShell
