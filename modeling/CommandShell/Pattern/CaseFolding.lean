import CommandShell.Text.LowerCase

/-! # Equality without regard to case

Two characters are equal without regard to case if their lower cases are, or if those have one
upper case. -/

namespace CommandShell.Pattern

/-- Lower-case characters with one upper case that differ. -/
def twins : List (List Nat) :=
  [[105, 305], [115, 383], [181, 956], [837, 953, 8126], [912, 8147], [944, 8163], [946, 976],
    [949, 1013], [952, 977], [954, 1008], [960, 982], [961, 1009], [962, 963], [966, 981],
    [1074, 7296], [1076, 7297], [1086, 7298], [1089, 7299], [1090, 7300, 7301], [1098, 7302],
    [1123, 7303], [7304, 42571], [7777, 7835], [64261, 64262]]

/-- The lower case of a code point, always one. -/
def fold (ascii : Bool) (n : Nat) : Nat :=
  if n < 128 then if 65 ≤ n ∧ n ≤ 90 then n + 32 else n
  else if ascii then n
  else if n = 304 then 105
  else Text.lowerNat n Text.capitalRuns

/-- A lower-case code point and its twins. -/
def withTwins (ascii : Bool) (n : Nat) : List Nat :=
  if ascii then [n] else (twins.find? (·.contains n)).getD [n]

/-- The code points of which `n` is the lower case, itself first. -/
def unfold (ascii : Bool) (n : Nat) : List Nat :=
  n :: (if 97 ≤ n ∧ n ≤ 122 then [n - 32] else []) ++
    if ascii then []
    else
      (if n = 105 then [304] else []) ++
        Text.capitalRuns.filterMap (fun r =>
          let (first, last, stride, lower) := r
          if lower ≤ n ∧ n - lower ≤ last - first ∧ (n - lower) % stride = 0 then
            some (first + (n - lower))
          else none)

/-- Equality without regard to case. -/
def foldEqual (ascii : Bool) (a b : Nat) : Bool :=
  (withTwins ascii (fold ascii b)).contains (fold ascii a)

/-- Is some code point that equals `n` without regard to case in a range? -/
def foldInRange (ascii : Bool) (n low high : Nat) : Bool :=
  (withTwins ascii (fold ascii n)).any (fun m =>
    (unfold ascii m).any (fun k => low ≤ k && k ≤ high))

end CommandShell.Pattern
