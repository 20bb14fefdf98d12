import CommandShell.Application.Effect

/-! # Giving out texts and files -/

namespace CommandShell.Application

/-- Every argument, each with a blank after it. -/
def runEcho (args : List Value) (w : World) : Effect :=
  .ofYield args w (Yield.each (fun
    | .text t => ⟨[.text (t ++ [' '])], none⟩
    | .list _ => ⟨[], some .addToList⟩) args)

/-- The lines of the files. For an argument that is a list, the first argument's members. -/
def runCat (args : List Value) (w : World) : Effect :=
  .ofYield args w (Yield.each (fun
    | .text path => Yield.ofExcept (w.openFile (.text path))
    | .list _ => ⟨(args.head?.map Value.members).getD [], none⟩) args)

end CommandShell.Application
