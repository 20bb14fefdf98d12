import CommandShell.Files.Reading

/-! # Effects of applications

An application is given its arguments and the world, and has an effect: what it adds to the
output, what is left of its arguments, the world after it, and why it failed if it did. What was
done before a failure stays done. An effect is guarded by an `UnsafeDecorator`. What the applications
share is `check_if_stdin_lines` (`sourceLines`), `check_if_stdin_file` (`sourceItems`) and
`check_wrong_flag` (`refuseFlag`). -/

namespace CommandShell

structure Effect where
  added : List Value
  args : List Value
  world : World
  fault : Option Fault

/-- Items given one after another, up to a failure. -/
structure Yield where
  items : List Value
  fault : Option Fault

namespace Yield

def ofExcept : Except Fault (List Value) → Yield
  | .ok xs => ⟨xs, none⟩
  | .error e => ⟨[], some e⟩

/-- What `f` yields for each in turn, up to the first failure. -/
def each {α : Type} (f : α → Yield) : List α → Yield
  | [] => ⟨[], none⟩
  | a :: rest =>
      match (f a).fault with
      | some e => ⟨(f a).items, some e⟩
      | none => ⟨(f a).items ++ (each f rest).items, (each f rest).fault⟩

theorem each_eq_flatMap {α : Type} (f : α → Yield) :
    ∀ as : List α, (∀ a ∈ as, (f a).fault = none) →
      each f as = ⟨as.flatMap (fun a => (f a).items), none⟩
  | [], _ => rfl
  | a :: rest, h => by
      have ha : (f a).fault = none := h a (by simp)
      have hr := each_eq_flatMap f rest (fun b hb => h b (by simp [hb]))
      simp [each, ha, hr]

end Yield

namespace Effect

/-- Nothing but output. -/
def ofYield (args : List Value) (w : World) (y : Yield) : Effect := ⟨y.items, args, w, y.fault⟩

def failed (args : List Value) (w : World) (e : Fault) : Effect := ⟨[], args, w, some e⟩

/-- A failure is printed and is none any more. -/
def guarded (e : Effect) : Effect :=
  match e.fault with
  | some f => { e with world := e.world.print (f.message ++ ['\n']), fault := none }
  | none => e

end Effect

namespace Value

/-- The first character or member. -/
def first? : Value → Except Fault Value
  | .text [] => .error .textIndex
  | .text (c :: _) => .ok (.text [c])
  | .list [] => .error .listIndex
  | .list (x :: _) => .ok x

/-- An integer. -/
def integer? : Value → Except Fault Int
  | .text t =>
      match Text.integer? t with
      | .ok n => .ok n
      | .error e => .error (.integer e)
  | .list _ => .error .listAsInteger

end Value

namespace Application

/-- The first argument, if there is one. -/
def firstArgument : List Value → Except Fault Value
  | [] => .error .listIndex
  | a :: _ => .ok a

/-- A first argument that starts with a dash is refused. -/
def refuseFlag (fault : Fault) (args : List Value) : Except Fault Unit :=
  match firstArgument args with
  | .error e => .error e
  | .ok a =>
      match a.first? with
      | .error e => .error e
      | .ok c => if c.isText ['-'] then .error fault else .ok ()

/-- The lines to work on: those given as a list, or those of a file. -/
def sourceLines (w : World) (args : List Value) : Except Fault (List Value) :=
  match args with
  | [] => .error .listIndex
  | .list xs :: _ => .ok xs
  | a :: _ => w.openFile a

/-- The things to work on, and whether they were given as a list. -/
def sourceItems (args : List Value) : Except Fault (List Value × Bool) :=
  match args with
  | [] => .error .listIndex
  | .list xs :: _ => .ok (xs, true)
  | _ => .ok (args, false)

end Application

end CommandShell
