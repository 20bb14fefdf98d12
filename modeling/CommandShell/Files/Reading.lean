import CommandShell.Fault
import CommandShell.Files.World
import CommandShell.Value

/-! # Reading and writing files

Files are read as lines, by `open_file`, and written as text, by `make_file` and by redirections. -/

namespace CommandShell.World

/-- The lines of a file. That there is no such file is said without its name. -/
def readLines (w : World) (path : Text) : Except Fault (List Text) :=
  if Path.hasZero path then .error .zeroInPath
  else
    match w.entryAt path with
    | .ok (.file c) =>
        match c.lines with
        | .ok ls => .ok ls
        | .error e => .error (.decoding e)
    | .ok (.folder _) => .error (.system .isFolder path)
    | .error .notFound => .error .fileMissing
    | .error e => .error (.system e path)

/-- The lines of the file that a value names. -/
def openFile (w : World) : Value → Except Fault (List Value)
  | .list _ => .error .listAsPath
  | .text path => (w.readLines path).map (fun ls => ls.map .text)

/-- Write a text over a file, or after what is there. -/
def writeText (w : World) (path : Text) (append : Bool) (t : Text) : Except Fault World :=
  if Path.hasZero path then .error .zeroInPath
  else
    match w.writePlace path with
    | .error e => .error (.system e path)
    | .ok (p, old) =>
        match old with
        | some c => .ok (w.setContent p (if append then c.append t else .text t))
        | none => .ok (w.setContent p (.text t))

/-- Something to be written: a text, or a value of another sort by its name. -/
inductive Piece where
  | text (t : Text)
  | other (sort : Text)
deriving DecidableEq, Repr

/-- The text of the pieces up to the first that is none, and the fault of that one. -/
def Piece.texts : List Piece → Text × Option Fault
  | [] => ([], none)
  | .other sort :: _ => ([], some (.notWritable sort))
  | .text t :: rest =>
      let r := Piece.texts rest
      (t ++ r.1, r.2)

/-- Make a file with the pieces as its content. -/
def makeFile (w : World) (file : Value) (pieces : List Piece) : World × Option Fault :=
  match file with
  | .list _ => (w, some .listAsPath)
  | .text path =>
      let r := Piece.texts pieces
      match w.writeText path false r.1 with
      | .ok w' => (w', r.2)
      | .error e => (w, some e)

/-- Make one folder. -/
def makeFolder (w : World) (path : Text) : World × Option Fault :=
  if Path.hasZero path then (w, some .zeroInPath)
  else
    match w.folderPlace path with
    | .ok p => ({ w with root := Entry.put (.folder []) p w.root }, none)
    | .error e => (w, some (.system e path))

/-- Make a folder and the folders above it; `fuel` bounds their number. A folder above that has
come to be there meanwhile is no fault, and what ends in a dot is then there already. -/
def makeFolders : Nat → Text → World → World × Option Fault
  | 0, _, w => (w, none)
  | fuel + 1, path, w =>
      let short := if (Path.lastName path).isEmpty then Path.parent path else path
      let above := Path.parent short
      let last := Path.lastName short
      if !above.isEmpty && !last.isEmpty && !w.hasEntry above then
        match makeFolders fuel above w with
        | (w', some (.system .alreadyThere _)) | (w', none) =>
            if last = ['.'] then (w', none) else w'.makeFolder path
        | (w', some e) => (w', some e)
      else w.makeFolder path

end CommandShell.World
