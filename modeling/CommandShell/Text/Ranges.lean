import CommandShell.Text.Basic

/-! # Ranges of code points

A set of code points is a list of ranges in ascending order. -/

namespace CommandShell.Text

/-- Is the number in one of the ascending ranges? -/
def inRanges (n : Nat) : List (Nat × Nat) → Bool
  | [] => false
  | (low, high) :: rest => if n < low then false else n ≤ high || inRanges n rest

theorem exists_of_inRanges {n : Nat} : ∀ {rs : List (Nat × Nat)}, inRanges n rs = true →
    ∃ r ∈ rs, r.1 ≤ n ∧ n ≤ r.2
  | [], h => by simp [inRanges] at h
  | (low, high) :: rest, h => by
      by_cases hl : n < low
      · simp [inRanges, hl] at h
      · by_cases hh : n ≤ high
        · exact ⟨(low, high), by simp, by omega, hh⟩
        · simp [inRanges, hl, hh] at h
          obtain ⟨r, hr, hb⟩ := exists_of_inRanges h
          exact ⟨r, by simp [hr], hb⟩

end CommandShell.Text
