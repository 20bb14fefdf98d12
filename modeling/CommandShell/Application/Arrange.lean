import CommandShell.Application.Effect
import CommandShell.Text.LowerCase

/-! # Sorting lines and leaving out repetitions

Two lines are alike as `compare` says. -/

namespace CommandShell.Application

mutual
/-- Is a value at most another? Texts go by code point, lists by their first difference. -/
def atMost : Value → Value → Bool
  | .text s, .text t => Text.ble s t
  | .list xs, .list ys => atMostAll xs ys
  | .text _, .list _ => true
  | .list _, .text _ => false

def atMostAll : List Value → List Value → Bool
  | [], _ => true
  | _ :: _, [] => false
  | x :: xs, y :: ys =>
      if Value.same x y then atMostAll xs ys else atMost x y
end

def isList : Value → Bool
  | .text _ => false
  | .list _ => true

/-- Texts and lists have no order among each other: the first value of another sort than the
first one meets it. -/
def orderFault (lines : List Value) : Option Fault :=
  match lines with
  | [] => none
  | a :: rest =>
      (rest.find? (fun b => isList b != isList a)).map (fun b => .noOrder b.sortName a.sortName)

/-- Insert a value before the first that it may stand before. -/
def insertBy (before : Value → Value → Bool) (v : Value) : List Value → List Value
  | [] => [v]
  | x :: xs => if before v x then v :: x :: xs else x :: insertBy before v xs

/-- The values in order. -/
def sortBy (before : Value → Value → Bool) : List Value → List Value
  | [] => []
  | x :: xs => insertBy before x (sortBy before xs)

theorem perm_insertBy (before : Value → Value → Bool) (v : Value) :
    ∀ xs : List Value, (insertBy before v xs).Perm (v :: xs)
  | [] => List.Perm.refl _
  | x :: xs => by
      unfold insertBy
      split
      · exact List.Perm.refl _
      · exact ((perm_insertBy before v xs).cons x).trans (List.Perm.swap v x xs)

theorem perm_sortBy (before : Value → Value → Bool) :
    ∀ xs : List Value, (sortBy before xs).Perm xs
  | [] => List.Perm.refl _
  | x :: xs => (perm_insertBy before x _).trans ((perm_sortBy before xs).cons x)

/-- In order, or in reverse. -/
def arranged (reverse : Bool) (lines : List Value) : Except Fault (List Value) :=
  match orderFault (if reverse then lines.reverse else lines) with
  | some e => .error e
  | none => .ok (sortBy (if reverse then fun a b => atMost b a else atMost) lines)

def runSort (args : List Value) (w : World) : Effect :=
  match args with
  | [] => .failed args w .listIndex
  | a :: rest =>
      let reverse := a.isText "-r".toList
      let args' := if reverse then rest else args
      match refuseFlag .wrongFlag args' with
      | .error e => .failed args' w e
      | .ok () =>
          match sourceLines w args' with
          | .error e => .failed args' w e
          | .ok lines => .ofYield args' w (Yield.ofExcept (arranged reverse lines))

/-- A line as it is compared: without blanks around it, perhaps in lower case. -/
def comparable (ignoreCase : Bool) : Value → Except Fault Text
  | .text t => .ok (Text.strip (if ignoreCase then Text.lower t else t))
  | .list _ => .error (.noOperation (if ignoreCase then "lower".toList else "strip".toList))

def alike (ignoreCase : Bool) (a b : Value) : Except Fault Bool :=
  match comparable ignoreCase a with
  | .error e => .error e
  | .ok s =>
      match comparable ignoreCase b with
      | .error e => .error e
      | .ok t => .ok (s = t)

/-- The lines that are not like the line before. -/
def changesAfter (ignoreCase : Bool) (before : Value) : List Value → Yield
  | [] => ⟨[], none⟩
  | line :: rest =>
      match alike ignoreCase before line with
      | .error e => ⟨[], some e⟩
      | .ok true => changesAfter ignoreCase line rest
      | .ok false =>
          let r := changesAfter ignoreCase line rest
          ⟨line :: r.items, r.fault⟩

/-- The first line of every run of lines that are alike. -/
def runStarts (ignoreCase : Bool) : List Value → Yield
  | [] => ⟨[], some .listIndex⟩
  | line :: rest =>
      let r := changesAfter ignoreCase line rest
      ⟨line :: r.items, r.fault⟩

def runUniq (args : List Value) (w : World) : Effect :=
  match args with
  | [] => .failed args w .listIndex
  | a :: rest =>
      let ignoreCase := a.isText "-i".toList
      let args' := if ignoreCase then rest else args
      match refuseFlag .wrongFlag args' with
      | .error e => .failed args' w e
      | .ok () =>
          match sourceLines w args' with
          | .error e => .failed args' w e
          | .ok lines => .ofYield args' w (runStarts ignoreCase lines)

end CommandShell.Application
