import CommandShell.Files.Changes
import CommandShell.Session

/-! # The shell as a program

The files below the working folder are read at the start. After every line what it printed is
printed and what it changed is written back. -/

namespace CommandShell.Program

def octetsOf (b : ByteArray) : List Nat := b.toList.map UInt8.toNat

def bytesOf (bs : List Nat) : ByteArray := ⟨(bs.map UInt8.ofNat).toArray⟩

/-- Read what is below an entry of the disk. -/
partial def loadEntry (e : IO.FS.DirEntry) : IO Entry := do
  if ← e.path.isDir then
    let inner ← (← e.path.readDir).mapM fun f => do
      return (f.fileName.toList, ← loadEntry f)
    return .folder (inner.foldl (fun items x => Entry.insertItem x.1 x.2 items) [])
  return .file (Content.ofOctets (octetsOf (← IO.FS.readBinFile e.path)))

/-- The world as the shell finds it. -/
def loadWorld : IO World := do
  let top ← IO.currentDir
  let inner ← (← top.readDir).mapM fun f => do
    return (f.fileName.toList, ← loadEntry f)
  return {
    root := .folder (inner.foldl (fun items x => Entry.insertItem x.1 x.2 items) [])
    top := top.toString.toList
    here := []
    terminal := ← (← IO.getStdout).isTty
    printed := []
    warned := [] }

def applyChange : Change → IO Unit
  | .written p c => IO.FS.writeBinFile (String.ofList (Path.ofPlace p)) (bytesOf c.toOctets)
  | .removed p => IO.FS.removeFile (String.ofList (Path.ofPlace p))
  | .newFolder p => IO.FS.createDirAll (String.ofList (Path.ofPlace p))

/-- Bring the disk and the terminal up to date, and go on with nothing printed. -/
def settle (before after : World) : IO World := do
  (Change.between before.root after.root).forM applyChange
  (← IO.getStderr).putStr (String.ofList after.warned)
  let out ← IO.getStdout
  out.putStr (String.ofList after.printed)
  out.flush
  return { after with printed := [], warned := [] }

def complain (e : Fault) : IO UInt32 := do
  (← IO.getStderr).putStrLn (String.ofList e.message)
  return 1

/-- Run lines until the input ends or one fails. -/
partial def interactive (w : World) : IO UInt32 := do
  let w ← settle w (w.print (Session.prompt w))
  let line ← (← IO.getStdin).getLine
  if line.isEmpty then complain .endOfInput
  else
    let (after, fault) := Session.runAndPrint (line.toList.filter (· ≠ '\n')) w
    let after ← settle w after
    match fault with
    | some e => complain e
    | none => interactive after

end CommandShell.Program

open CommandShell in
def main (args : List String) : IO UInt32 := do
  let w ← Program.loadWorld
  if args.isEmpty then Program.interactive w
  else
    let (after, fault) := Session.withArguments (args.map String.toList) w
    let _ ← Program.settle w after
    match fault with
    | some e => Program.complain e
    | none => return 0
