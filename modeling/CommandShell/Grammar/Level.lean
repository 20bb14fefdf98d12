import CommandShell.Grammar.Basic

/-! # Binding levels

A rule that goes on after an operator does so only up to a binding level, as its `sempred` says. -/

namespace CommandShell.Grammar

/-- A rule that has no condition on its binding level, by its number. -/
structure NoCondition where
  rule : Int
deriving DecidableEq, Repr

/-- The wording for it. -/
def NoCondition.message (e : NoCondition) : Text :=
  "No predicate with index:".toList ++
    (if e.rule < 0 then '-' :: Text.ofNat e.rule.natAbs else Text.ofNat e.rule.natAbs)

/-- Does the condition of a rule hold at a level? Commands have condition 0, pipes condition
1; of other conditions nothing is known. -/
def condition (rule condition : Int) (level : Int) : Except NoCondition (Option Bool) :=
  if rule = 1 then .ok (if condition = 0 then some (decide (level ≤ commandLimit)) else none)
  else if rule = 2 then .ok (if condition = 1 then some (decide (level ≤ pipeLimit)) else none)
  else .error ⟨rule⟩

end CommandShell.Grammar
