import CommandShell.Application.Effect
import CommandShell.Text.Blank
import CommandShell.Wildcard

/-! # Folders: going to, listing, searching, making and removing -/

namespace CommandShell.Application

/-- Go to a folder. -/
def runCd (args : List Value) (w : World) : Effect :=
  match args with
  | [] => .failed args w .listIndex
  | .list _ :: _ => .failed args w .listAsFolder
  | .text path :: _ =>
      if Path.hasZero path then .failed args w .zeroInPath
      else
        match w.locate path with
        | .error e => .failed args w (.system e path)
        | .ok p =>
            match w.root.get? p with
            | some (.folder _) => ⟨[], args, { w with here := p }, none⟩
            | _ => .failed args w (.system .notFolder path)

/-- The working folder. -/
def runPwd (args : List Value) (w : World) : Effect := .ofYield args w ⟨[.text w.hereText], none⟩

/-- The names in a listing but those that start with a dot, each on a line. -/
def shownNames (items : List (Text × Entry)) : List Value :=
  (items.filter (fun x => x.1.head? ≠ some '.')).map (fun x => .text (x.1 ++ ['\n']))

def runLs (args : List Value) (w : World) : Effect :=
  match args with
  | [] => .ofYield args w ⟨shownNames ((w.root.get? w.here).getD (.folder [])).items, none⟩
  | .list _ :: _ => .failed args w .listAsListing
  | .text path :: _ =>
      if Path.hasZero path then .failed args w .zeroInPath
      else
        match w.listing path with
        | .error e => .failed args w (.system e path)
        | .ok items => .ofYield args w ⟨shownNames items, none⟩

mutual
/-- The files below an entry, each as the path of its folder and its name: those of a folder
itself before those of the folders in it. A folder whose path is too long is passed over. -/
def filesBelow (path : Text) : Entry → List (Text × Text)
  | .file _ => []
  | .folder items =>
      if World.pathLimit < (Text.encode path).length then []
      else
        (items.filter (fun x => x.2.isFile)).map (fun x => (path, x.1)) ++ filesInside path items

def filesInside (path : Text) : List (Text × Entry) → List (Text × Text)
  | [] => []
  | (name, e) :: rest => filesBelow (Path.join path name) e ++ filesInside path rest
end

/-- The files below a path; nothing below a path that leads to no folder. -/
def filesUnder (w : World) (path : Text) : Except Fault (List (Text × Text)) :=
  if Path.hasZero path then .error .zeroInPath
  else
    match w.entryAt path with
    | .ok e => .ok (filesBelow path e)
    | .error _ => .ok []

/-- A file whose name fits the wildcard. -/
def fitting (wildcard : Value) (file : Text × Text) : Yield :=
  match wildcard with
  | .list _ => ⟨[], some .listAsPath⟩
  | .text t =>
      if Wild.nameMatches t file.2 then ⟨[.text (Path.join file.1 file.2 ++ ['\n'])], none⟩
      else ⟨[], none⟩

def runFind (args : List Value) (w : World) : Effect :=
  match args with
  | [] => .failed args w .listIndex
  | a :: _ =>
      let top := if a.isText "-name".toList then .text ['.'] else a
      let wildcard :=
        if args.any (Value.isText "-name".toList) then args.getLast?.getD a else .text ['*']
      match top with
      | .list _ => .failed args w .listAsPath
      | .text path =>
          match filesUnder w path with
          | .error e => .failed args w e
          | .ok files => .ofYield args w (Yield.each (fitting wildcard) files)

/-- Do something to the world for each argument in turn, up to the first failure. -/
def forEach (f : Value → World → World × Option Fault) : List Value → World → World × Option Fault
  | [], w => (w, none)
  | v :: rest, w =>
      match f v w with
      | (w', some e) => (w', some e)
      | (w', none) => forEach f rest w'

/-- Make the folder that a value names, blanks around it apart. -/
def makeOne (v : Value) (w : World) : World × Option Fault :=
  match v with
  | .list _ => (w, some (.noOperation "strip".toList))
  | .text t =>
      let path := Text.strip t
      if w.hasFolder path then (w, some (.folderExists t))
      else World.makeFolders (path.length + 1) path w

/-- Remove the file that a value names, blanks around it apart. -/
def removeOne (v : Value) (w : World) : World × Option Fault :=
  match v with
  | .list _ => (w, some (.noOperation "strip".toList))
  | .text t =>
      let path := Text.strip t
      if w.hasFile path then
        match w.locate path with
        | .ok p => (w.removeFile p, none)
        | .error e => (w, some (.system e path))
      else (w, some (.notFile t))

/-- Do something for each name given. -/
def withNames (f : Value → World → World × Option Fault) (args : List Value) (w : World) : Effect :=
  match refuseFlag .noFlags args with
  | .error e => .failed args w e
  | .ok () =>
      match sourceItems args with
      | .error e => .failed args w e
      | .ok (names, _) =>
          let r := forEach f names w
          ⟨[], args, r.1, r.2⟩

def runMkdir (args : List Value) (w : World) : Effect := withNames makeOne args w

def runRm (args : List Value) (w : World) : Effect := withNames removeOne args w

end CommandShell.Application
