import CommandShell.Application.Effect

/-! # The first or the last lines

How many lines are wanted and of which is found out by `head_tail_check_args` (`selection`). -/

namespace CommandShell.Application

/-- How many lines, and the arguments after that. -/
def lineCount (args : List Value) : Except Fault (Int × List Value) :=
  match args with
  | [] => .error .listIndex
  | a :: rest =>
      if a.isText "-n".toList then
        match rest with
        | [] => .error .listIndex
        | n :: rest' =>
            match n.integer? with
            | .ok k => .ok (k, rest')
            | .error e => .error e
      else .ok (10, args)

/-- The lines to choose from and how many. -/
def selection (w : World) (args : List Value) : Except Fault (List Value × Int) :=
  match lineCount args with
  | .error e => .error e
  | .ok (n, rest) =>
      match refuseFlag .wrongFlag rest with
      | .error e => .error e
      | .ok () =>
          match sourceLines w rest with
          | .error e => .error e
          | .ok lines => .ok (lines, n)

/-- The first `n` lines, none for a negative number. -/
def firstLines (lines : List Value) (n : Int) : List Value := lines.take n.toNat

/-- The last `n` lines. -/
def lastLines (lines : List Value) (n : Int) : List Value := lines.drop (lines.length - n.toNat)

def runHead (args : List Value) (w : World) : Effect :=
  match selection w args with
  | .error e => .failed args w e
  | .ok (lines, n) => .ofYield args w ⟨firstLines lines n, none⟩

def runTail (args : List Value) (w : World) : Effect :=
  match selection w args with
  | .error e => .failed args w e
  | .ok (lines, n) => .ofYield args w ⟨lastLines lines n, none⟩

end CommandShell.Application
