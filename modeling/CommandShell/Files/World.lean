import CommandShell.Files.Path
import CommandShell.Files.SystemError

/-! # The world of a shell

All files below one top folder, the working folder, whether output goes to a terminal, and what
has been printed. A path is followed name by name from the working folder; every name on the way
must be there and be a folder. What is outside the top folder is not part of the world: a path that
starts with a slash, or goes above the top folder, leads nowhere. -/

namespace CommandShell

structure World where
  /-- The top folder. -/
  root : Entry
  /-- The name under which the top folder is shown. -/
  top : Text
  /-- The working folder. -/
  here : Place
  /-- Is standard output a terminal? -/
  terminal : Bool
  printed : Text
  /-- What has been printed to standard error. -/
  warned : Text

namespace World

/-- The longest name and the longest path, in octets. -/
def nameLimit : Nat := 255

def pathLimit : Nat := 4095

/-- Follow names from a place. -/
def follow (root : Entry) : Place → List Text → Except SystemError Place
  | place, [] => .ok place
  | place, n :: ns =>
      match root.get? place with
      | some (.folder items) =>
          if n = [] ∨ n = ['.'] then follow root place ns
          else if n = ['.', '.'] then
            if place.isEmpty then .error .notFound else follow root place.dropLast ns
          else if nameLimit < (Text.encode n).length then .error .nameTooLong
          else
            match items.lookup n with
            | some _ => follow root (place ++ [n]) ns
            | none => .error .notFound
      | _ => .error .notFolder

/-- Follow the names of a path from the working folder. -/
def followPath (w : World) (path : Text) (ns : List Text) : Except SystemError Place :=
  if pathLimit < (Text.encode path).length then .error .nameTooLong
  else if path.isEmpty || Path.isAbsolute path then .error .notFound
  else follow w.root w.here ns

/-- The place of an entry that is there. -/
def locate (w : World) (path : Text) : Except SystemError Place :=
  w.followPath path (Path.names path)

def entryAt (w : World) (path : Text) : Except SystemError Entry :=
  match w.locate path with
  | .ok p => .ok ((w.root.get? p).getD (.folder []))
  | .error e => .error e

/-- Is something there? -/
def hasEntry (w : World) (path : Text) : Bool :=
  !Path.hasZero path && (w.entryAt path).isOk

def hasFile (w : World) (path : Text) : Bool :=
  !Path.hasZero path &&
    match w.entryAt path with
    | .ok e => e.isFile
    | .error _ => false

def hasFolder (w : World) (path : Text) : Bool :=
  !Path.hasZero path &&
    match w.entryAt path with
    | .ok e => e.isFolder
    | .error _ => false

/-- The listing of a folder. -/
def listing (w : World) (path : Text) : Except SystemError (List (Text × Entry)) :=
  match w.entryAt path with
  | .ok (.folder items) => .ok items
  | .ok (.file _) => .error .notFolder
  | .error e => .error e

/-- Names without the empty ones at the end. -/
def trimNames (ns : List Text) : List Text := (ns.reverse.dropWhile List.isEmpty).reverse

/-- The folder in which the last name of a path stands, and that name. -/
def parentPlace (w : World) (path : Text) : Except SystemError (Place × Text) :=
  let ns := trimNames (Path.names path)
  match w.followPath path ns.dropLast with
  | .ok p =>
      match w.root.get? p with
      | some (.folder _) => .ok (p, ns.getLast?.getD [])
      | _ => .error .notFolder
  | .error e => .error e

/-- The place to which a file can be written, and the content that is there. -/
def writePlace (w : World) (path : Text) : Except SystemError (Place × Option Content) :=
  match w.parentPlace path with
  | .error e => .error e
  | .ok (p, n) =>
      if path.getLast? = some '/' ∨ n = ['.'] ∨ n = ['.', '.'] then .error .isFolder
      else if nameLimit < (Text.encode n).length then .error .nameTooLong
      else
        match w.root.get? (p ++ [n]) with
        | some (.folder _) => .error .isFolder
        | some (.file c) => .ok (p ++ [n], some c)
        | none => .ok (p ++ [n], none)

/-- The world with a content written at a place. -/
def setContent (w : World) (p : Place) (c : Content) : World :=
  { w with root := Entry.put (.file c) p w.root }

/-- The place at which a folder can be made. -/
def folderPlace (w : World) (path : Text) : Except SystemError Place :=
  match w.parentPlace path with
  | .error e => .error e
  | .ok (p, n) =>
      if n = ['.'] ∨ n = ['.', '.'] then .error .alreadyThere
      else if nameLimit < (Text.encode n).length then .error .nameTooLong
      else
        match w.root.get? (p ++ [n]) with
        | some _ => .error .alreadyThere
        | none => .ok (p ++ [n])

/-- The world without the file at a place. -/
def removeFile (w : World) (p : Place) : World := { w with root := w.root.erase p }

def print (w : World) (t : Text) : World := { w with printed := w.printed ++ t }

def warn (w : World) (t : Text) : World := { w with warned := w.warned ++ t }

/-- The working folder as it is shown. -/
def hereText (w : World) : Text := w.top ++ w.here.flatMap (fun n => '/' :: n)

end World

end CommandShell
