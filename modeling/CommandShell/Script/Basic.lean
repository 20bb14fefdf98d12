import CommandShell.Script.Draft

/-! # Scripts

A script is what a draft comes to: commands over rows that they share. -/

namespace CommandShell

/-- Commands that share rows: what one of them expands, the others see. -/
structure Script where
  rows : List Row
  commands : List (Form × List Nat)

namespace Draft

def form : Plan → Form
  | .pipe _ => .pipe
  | .sequence _ => .sequence

/-- The commands met, ready to run. -/
def queued (d : Draft) : List (Form × List Nat) := d.queue.map (fun p => (form p, d.planRows p))

/-- The current tree as one call. -/
def single (d : Draft) : List (Form × List Nat) := [(.call, d.tree)]

def script (d : Draft) (commands : List (Form × List Nat)) : Script :=
  ⟨d.rows.map (fun row => row.map .text), commands⟩

end Draft

namespace Script

def rowsAt (s : Script) (ids : List Nat) : List Row := ids.map (fun i => s.rows[i]?.getD [])

/-- Put rows back. -/
def putRows : List Nat → List Row → List Row → List Row
  | i :: is, row :: rest, rows => putRows is rest (rows.set i row)
  | _, _, rows => rows

/-- Run the commands. The output of a command comes after that of the commands before it, which
is given out again with it. -/
def runFrom (rows : List Row) (input final out : List Value) (w : World) :
    List (Form × List Nat) → List Value × World × Option Fault
  | [] => (out, w, none)
  | (form, ids) :: rest =>
      let r := Command.run form (rowsAt ⟨rows, []⟩ ids) input final w
      match r.fault with
      | some e => (out, r.world, some e)
      | none => runFrom (putRows ids r.rows rows) r.input r.out (out ++ r.out) r.world rest

def run (s : Script) (out : List Value) (w : World) : List Value × World × Option Fault :=
  runFrom s.rows [] [] out w s.commands

end Script

end CommandShell
