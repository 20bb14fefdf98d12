import CommandShell.Application.Effect
import CommandShell.Text.Blank

/-! # Counting lines, words and characters

Counting is `wc_counter` (`counts`), and for the words `word_count`. -/

namespace CommandShell.Application

/-- The number of words of the lines. -/
def wordCount : List Value → Except Fault Nat
  | [] => .ok 0
  | .list _ :: _ => .error (.noOperation "split".toList)
  | .text t :: rest =>
      match wordCount rest with
      | .ok n => .ok ((Text.words t).length + n)
      | .error e => .error e

/-- The numbers of lines, words and characters. -/
def counts (lines : List Value) : Except Fault (Nat × Nat × Nat) :=
  match wordCount lines with
  | .ok n => .ok (lines.length, n, lines.foldr (fun v n => v.size + n) 0)
  | .error e => .error e

def countsText (c : Nat × Nat × Nat) : Text :=
  Text.ofNat c.1 ++ [':'] ++ Text.ofNat c.2.1 ++ [':'] ++ Text.ofNat c.2.2

/-- The counts of lines, after `before`. -/
def counted (before : Text) (lines : List Value) : Yield :=
  match counts lines with
  | .ok c => ⟨[.text (before ++ countsText c)], none⟩
  | .error e => ⟨[], some e⟩

def runWc (args : List Value) (w : World) : Effect :=
  match refuseFlag .noFlags args with
  | .error e => .failed args w e
  | .ok () =>
      match sourceItems args with
      | .error e => .failed args w e
      | .ok (lines, true) => .ofYield args w (counted [] lines)
      | .ok (files, false) =>
          .ofYield args w (Yield.each (fun file =>
            match w.openFile file with
            | .error e => ⟨[], some e⟩
            | .ok lines => counted (file.shown ++ [':']) lines) files)

end CommandShell.Application
