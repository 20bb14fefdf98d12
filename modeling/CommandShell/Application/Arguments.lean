import CommandShell.Application.Basic

/-! # Arguments that an application takes

They are counted by `check_arguments`, which the `run_` function of every application calls. -/

namespace CommandShell.Application

/-- Does the application take this number of arguments? -/
def takes : Application → Nat → Bool
  | .head, n => n = 1 || n = 3
  | .tail, n => n = 1 || n = 3
  | .uniq, n => n = 1 || n = 2
  | .sort, n => n = 1 || n = 2
  | .cd, n => n = 1
  | .ls, n => n = 0 || n = 1
  | .grep, n => !(n = 0 || n = 1)
  | .cut, n => n = 3
  | .rm, n => n ≠ 0
  | .mkdir, n => n ≠ 0
  | .wc, n => n ≠ 0
  | .cat, _ => true
  | .echo, _ => true
  | .find, _ => true
  | .pwd, _ => true

/-- The first flag that a search for files does not know, or what is wrong before it. -/
def findFlagFault : List Value → Option Fault
  | [] => none
  | a :: rest =>
      match a.first? with
      | .error e => some e
      | .ok c =>
          if c.isText ['-'] && !a.isText "-name".toList then some .wrongFindFlag
          else findFlagFault rest

/-- A search for files names what it looks for last, and without arguments is for all below the
working folder. -/
def findArguments (args : List Value) : Except Fault (List Value) :=
  let isFlag := Value.isText "-name".toList
  match findFlagFault args with
  | some e => .error e
  | none =>
      if args.any isFlag then
        if args.getLast?.any isFlag then .error .missingFindName
        else
          match args.dropLast.getLast? with
          | none => .error .listIndex
          | some v => if isFlag v then .ok args else .error .findPathsFirst
      else if args.isEmpty then .ok [.text ['.']]
      else .ok args

/-- The arguments with which the application is run. -/
def arguments (a : Application) (args : List Value) : Except Fault (List Value) :=
  match a with
  | .find => findArguments args
  | _ => if a.takes args.length then .ok args else .error .wrongArgumentCount

end CommandShell.Application
