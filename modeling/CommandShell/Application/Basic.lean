import CommandShell.Application.Arrange
import CommandShell.Application.Count
import CommandShell.Application.Cut
import CommandShell.Application.Folder
import CommandShell.Application.Print
import CommandShell.Application.Search
import CommandShell.Application.Select

/-! # Applications

The fifteen applications by name, the number of arguments that each takes, and what it does. -/

namespace CommandShell

inductive Application where
  | cat
  | cd
  | cut
  | echo
  | find
  | grep
  | head
  | ls
  | mkdir
  | pwd
  | rm
  | sort
  | tail
  | uniq
  | wc
deriving DecidableEq, Repr

namespace Application

def all : List Application :=
  [.cat, .cd, .cut, .echo, .find, .grep, .head, .ls, .mkdir, .pwd, .rm, .sort, .tail, .uniq, .wc]

def name : Application → Text
  | .cat => "cat".toList
  | .cd => "cd".toList
  | .cut => "cut".toList
  | .echo => "echo".toList
  | .find => "find".toList
  | .grep => "grep".toList
  | .head => "head".toList
  | .ls => "ls".toList
  | .mkdir => "mkdir".toList
  | .pwd => "pwd".toList
  | .rm => "rm".toList
  | .sort => "sort".toList
  | .tail => "tail".toList
  | .uniq => "uniq".toList
  | .wc => "wc".toList

def ofName? (t : Text) : Option Application := all.find? (fun a => a.name = t)

theorem ofName?_name (a : Application) : ofName? a.name = some a := by cases a <;> decide

/-- Is the text the name of an application, perhaps after an underscore? -/
def isName (t : Text) : Bool :=
  match t with
  | '_' :: rest => (ofName? rest).isSome
  | _ => (ofName? t).isSome

def exec : Application → List Value → World → Effect
  | .cat => runCat
  | .cd => runCd
  | .cut => runCut
  | .echo => runEcho
  | .find => runFind
  | .grep => runGrep
  | .head => runHead
  | .ls => runLs
  | .mkdir => runMkdir
  | .pwd => runPwd
  | .rm => runRm
  | .sort => runSort
  | .tail => runTail
  | .uniq => runUniq
  | .wc => runWc

end Application

end CommandShell
