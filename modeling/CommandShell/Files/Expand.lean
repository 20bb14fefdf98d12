import CommandShell.Fault
import CommandShell.Files.World
import CommandShell.Wildcard

/-! # Names that a wildcard describes

A path with wildcards in it stands for the paths that are there and fit it, name by name. Names
that start with a dot fit only a wildcard that does so too. -/

namespace CommandShell.World

def hasWildcard (t : Text) : Bool := t.any (fun c => c = '*' || c = '?' || c = '[')

def isHidden (t : Text) : Bool := t.head? = some '.'

/-- The names in a folder that fit, only those of folders if `folders`. A path that leads to no
folder has none. -/
def namesIn (w : World) (folder wildcard : Text) (folders : Bool) : Except Fault (List Text) :=
  let path := if folder.isEmpty then ['.'] else folder
  if Path.hasZero path then .error .zeroInPath
  else
    match w.listing path with
    | .error _ => .ok []
    | .ok items =>
        .ok ((items.filter (fun x =>
          (!folders || x.2.isFolder) && (isHidden wildcard || !isHidden x.1) &&
            Wild.nameMatches wildcard x.1)).map Prod.fst)

/-- A plain name in a folder, if it is there; an empty name asks for a folder. -/
def plainIn (w : World) (folder name : Text) : List Text :=
  if name.isEmpty then if w.hasFolder folder then [name] else []
  else if w.hasEntry (if folder.isEmpty then name else Path.join folder name) then [name]
  else []

/-- Apply to each folder in turn, up to the first fault. -/
def inFolders (f : Text → Except Fault (List Text)) : List Text → Except Fault (List Text)
  | [] => .ok []
  | d :: ds =>
      match f d with
      | .error e => .error e
      | .ok names =>
          match inFolders f ds with
          | .error e => .error e
          | .ok rest => .ok (names.map (Path.join d) ++ rest)

/-- The paths that fit; `fuel` bounds the number of names in the path. -/
def expandWithin (w : World) : Nat → Text → Bool → Except Fault (List Text)
  | 0, _, _ => .ok []
  | fuel + 1, path, folders =>
      let folder := Path.parent path
      let name := Path.lastName path
      if !hasWildcard path then
        if name.isEmpty then .ok (if w.hasFolder folder then [path] else [])
        else .ok (if w.hasEntry path then [path] else [])
      else if folder.isEmpty then w.namesIn [] name folders
      else
        let above :=
          if hasWildcard folder then w.expandWithin fuel folder true else .ok [folder]
        match above with
        | .error e => .error e
        | .ok ds =>
            inFolders (fun d =>
              if hasWildcard name then w.namesIn d name folders else .ok (w.plainIn d name)) ds

def expand (w : World) (path : Text) : Except Fault (List Text) :=
  w.expandWithin (path.length + 1) path false

end CommandShell.World
