import CommandShell.Files.Path

/-! # What has changed

The difference between two states of a folder: files with new content, files that are gone, new
folders. -/

namespace CommandShell

inductive Change where
  | written (p : Place) (c : Content)
  | removed (p : Place)
  | newFolder (p : Place)
deriving DecidableEq, Repr

namespace Change

def ofNew (old : Entry) : Place × Option Content → Option Change
  | (p, some c) =>
      match old.get? p with
      | some (.file d) => if d = c then none else some (.written p c)
      | _ => some (.written p c)
  | (p, none) =>
      match old.get? p with
      | some (.folder _) => none
      | _ => some (.newFolder p)

def ofOld (new : Entry) : Place × Option Content → Option Change
  | (p, some _) =>
      match new.get? p with
      | some (.file _) => none
      | _ => some (.removed p)
  | (_, none) => none

def between (old new : Entry) : List Change :=
  (new.contents []).filterMap (ofNew old) ++ (old.contents []).filterMap (ofOld new)

end Change

end CommandShell
