import CommandShell.Application.Effect
import CommandShell.Application.Slots

/-! # Cutting characters out of lines

A list of positions is read sign by sign: digits, dashes and commas. The reader is `find_range`, and
`cut_b` cuts lines by what it finds. -/

namespace CommandShell.Application

/-- What has been read of a list of positions. -/
structure Cutting where
  /-- The positions before dashes. -/
  starts : List Int
  /-- Indices in the order in which they were found, with some that are negative. -/
  found : List Int
  /-- Does an interval reach to the end of the line? -/
  toEnd : Bool
  /-- The last index before a dash could come, or -1. -/
  last : Int
  /-- Has a dash come without a number before it? -/
  dashed : Bool
deriving DecidableEq, Repr

namespace Cutting

def empty : Cutting := ⟨[], [], false, -1, false⟩

/-- The integers from `a` up to but not including `b`. -/
def span (a b : Int) : List Int := (List.range (b - a).toNat).map (fun k : Nat => a + k)

/-- A number comes. After a dash alone all indices below it count; else those from the last
index found. -/
def number (s : Cutting) (n : Int) : Cutting :=
  if s.dashed then
    { s with
      toEnd := false
      dashed := false
      found := s.found ++ span 0 n ++ span s.last n }
  else
    let last := s.found.getLast?.getD (n - 1)
    { s with
      toEnd := false
      last := last
      found := s.found ++ span last n }

def step (s : Cutting) (item : Value) : Except Fault Cutting :=
  if item.isText ['-'] then
    if s.last = -1 then .ok { s with dashed := true }
    else .ok { s with starts := s.starts ++ [s.last], toEnd := true }
  else if item.isText [','] then .ok { s with last := -1 }
  else
    match item.integer? with
    | .ok n => .ok (s.number n)
    | .error e => .error e

def readFrom (s : Cutting) : List Value → Except Fault Cutting
  | [] => .ok s
  | item :: rest =>
      match s.step item with
      | .ok s' => s'.readFrom rest
      | .error e => .error e

def read (items : List Value) : Except Fault Cutting := empty.readFrom items

/-- The indices that are not negative, as they were found. -/
def kept (s : Cutting) : List Nat := s.found.filterMap Int.toNat?

/-- The indices that are not negative, each once, in the order in which a table lists them. -/
def indices (s : Cutting) : List Int := (Slots.ofList s.kept).numbers.map Int.ofNat

/-- The text at an index of a line. -/
def pick (line : Value) (i : Int) : Except Fault Text :=
  match line with
  | .text t =>
      match t[i.toNat]? with
      | some c => .ok [c]
      | none => .error .textIndex
  | .list xs =>
      match xs[i.toNat]? with
      | some (.text t) => .ok t
      | some (.list _) => .error .addList
      | none => .error .listIndex

def pickAll (line : Value) : List Int → Except Fault Text
  | [] => .ok []
  | i :: is =>
      match pick line i with
      | .error e => .error e
      | .ok t =>
          match pickAll line is with
          | .error e => .error e
          | .ok u => .ok (t ++ u)

/-- What is left of a line. An interval to the end leaves just what it holds, with the line
break; otherwise the indices count and a line break is added. -/
def cutLine (s : Cutting) (line : Value) : Except Fault Text :=
  match s.toEnd, s.starts with
  | true, n :: _ =>
      match line with
      | .text t => .ok (t.drop n.toNat)
      | .list _ => .error .addList
  | true, [] =>
      match pickAll line s.indices with
      | .error e => .error e
      | .ok _ => .error .listIndex
  | false, _ =>
      match pickAll line s.indices with
      | .error e => .error e
      | .ok t => .ok (t ++ ['\n'])

end Cutting

def runCut (args : List Value) (w : World) : Effect :=
  match args with
  | [] => .failed args w .listIndex
  | a :: rest =>
      if a.isText "-b".toList then
        match rest with
        | [] => .failed rest w .listIndex
        | positions :: rest' =>
            match Cutting.read positions.members with
            | .error e => .failed rest' w e
            | .ok cutting =>
                match sourceLines w rest' with
                | .error e => .failed rest' w e
                | .ok lines =>
                    .ofYield rest' w (Yield.each (fun line =>
                      match cutting.cutLine line with
                      | .ok t => ⟨[.text t], none⟩
                      | .error e => ⟨[], some e⟩) lines)
      else .failed args w .wrongCutFlag

end CommandShell.Application
