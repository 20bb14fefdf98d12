import CommandShell.Token.Basic

/-! # Scanning

The scan first groups the text into runs, from the right, and then walks the runs from the
left to give each its position. Every character belongs to some run. -/

namespace CommandShell.Token

/-- Group a text into marks and longest runs. -/
def runs : Text → List (Kind × Text)
  | [] => []
  | c :: cs =>
      match runs cs with
      | [] => [(Kind.ofChar c, [c])]
      | (k, t) :: rest =>
          if Kind.ofChar c = k ∧ k.isRun = true then (k, c :: t) :: rest
          else (Kind.ofChar c, [c]) :: (k, t) :: rest

/-- Line and column after one more character; only a line feed starts a new line. -/
def advance (place : Nat × Nat) (c : Char) : Nat × Nat :=
  if c = '\n' then (place.1 + 1, 0) else (place.1, place.2 + 1)

/-- Line and column after a text. -/
def advanceAll (place : Nat × Nat) (t : Text) : Nat × Nat := t.foldl advance place

/-- Give each run its place, the first one standing at `place` after `start` code points. -/
def locate (place : Nat × Nat) (start : Nat) : List (Kind × Text) → List Token
  | [] => []
  | (k, t) :: rest =>
      ⟨k, t, place.1, place.2, start⟩ :: locate (advanceAll place t) (start + t.length) rest

/-- The tokens of a text. -/
def scan (t : Text) : List Token := locate (1, 0) 0 (runs t)

/-- The token that stands for the end of a text. -/
def finish (t : Text) : Token :=
  let p := advanceAll (1, 0) t
  ⟨.finish, "<EOF>".toList, p.1, p.2, t.length⟩

theorem runs_flatten : ∀ t : Text, ((runs t).map Prod.snd).flatten = t
  | [] => rfl
  | c :: cs => by
      have ih := runs_flatten cs
      unfold runs
      split
      · next h => simp [h] at ih; simp [ih]
      · next k t rest h =>
          simp only [h, List.map_cons, List.flatten_cons] at ih
          split <;> simp [ih]

theorem locate_texts : ∀ (rs : List (Kind × Text)) (p : Nat × Nat) (n : Nat),
    (locate p n rs).map Token.text = rs.map Prod.snd
  | [], _, _ => rfl
  | (_, t) :: rest, p, n => by simp [locate, locate_texts rest]

/-- The texts of the tokens, put together, are the text. -/
theorem scan_texts (t : Text) : ((scan t).map Token.text).flatten = t := by
  rw [scan, locate_texts, runs_flatten]

end CommandShell.Token
