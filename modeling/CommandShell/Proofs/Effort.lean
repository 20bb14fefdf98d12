import CommandShell.Proofs.Ending
import CommandShell.Proofs.Leads
import CommandShell.Proofs.Conservation

/-! # How long a reading takes

The work of a reading is bounded by the number of tokens: the steps that are taken, the rules that
are entered and left, and the tokens that are read or passed over. Every reading comes to its end
and has a tree, whatever the tokens are and whichever rule it starts from. -/

namespace CommandShell.Parse

open Grammar

namespace Machine

/-- The number of steps that are taken of the `n` that are allowed. -/
def steps : Nat → Machine → Nat
  | 0, _ => 0
  | n + 1, m => if m.stack.isEmpty then 0 else steps n m.step + 1

theorem steps_succ {m : Machine} (h : m.stack ≠ []) (n : Nat) :
    m.steps (n + 1) = m.step.steps n + 1 := by
  simp [steps, h]

theorem steps_of_nil {m : Machine} (h : m.stack = []) (n : Nat) : m.steps n = 0 := by
  cases n with
  | zero => rfl
  | succ n => simp [steps, h]

/-- However many steps are allowed, no more are taken than the measure says. -/
theorem steps_le_measure {m : Machine} (hp : Placed m.view.tasks)
    (hf : m.view.finish.kind = .finish) (n : Nat) : m.steps n ≤ m.view.measure := by
  induction n generalizing m with
  | zero => exact Nat.zero_le _
  | succ n ih =>
      cases hs : m.stack with
      | nil => simp [steps_of_nil hs]
      | cons f fs =>
          have hact := act_step hs
          have hrest := ih (hact.placed hp) (by rw [hact.finish_eq, hf])
          have hlt := hact.measure_lt hp hf
          rw [steps_succ (by simp [hs])]
          omega

/-! ### What a step notes -/

/-- The events so far and the tokens that can still become events. -/
def spread (m : Machine) : Nat := m.events.length + m.rest.length

@[simp] theorem spread_addKid (m : Machine) (t : Tree) : (m.addKid t).spread = m.spread := by
  unfold addKid
  split <;> rfl

@[simp] theorem spread_addKids (ts : List Tree) (m : Machine) :
    (ts.foldl addKid m).spread = m.spread := by
  induction ts generalizing m with
  | nil => rfl
  | cons t ts ih => rw [List.foldl_cons, ih, spread_addKid]

@[simp] theorem spread_setTodo (m : Machine) (todo : List Item) :
    (m.setTodo todo).spread = m.spread := by
  unfold setTodo
  split <;> rfl

@[simp] theorem spread_complainAt (m : Machine) (t : Token) (trouble : Trouble) :
    (m.complainAt t trouble).spread = m.spread := by
  unfold complainAt
  split <;> rfl

@[simp] theorem spread_complain (m : Machine) (trouble : Trouble) :
    (m.complain trouble).spread = m.spread := spread_complainAt m _ trouble

@[simp] theorem spread_settle (m : Machine) : m.settle.spread = m.spread := rfl

theorem rest_consume (m : Machine) : m.consume.rest = m.rest.drop 1 :=
  congrArg View.rest (view_consume m)

theorem length_events_consume (m : Machine) :
    m.consume.events.length = m.events.length + 1 := by
  cases hr : m.recovering <;> simp [consume, hr]

/-- Only at the end of the text is there an event without a token. -/
theorem spread_consume_le (m : Machine) : m.consume.spread ≤ m.spread + 1 := by
  rw [spread, spread, length_events_consume, rest_consume, List.length_drop]
  omega

theorem spread_consume_of_cons {m : Machine} {t : Token} {ts : List Token}
    (h : m.rest = t :: ts) : m.consume.spread = m.spread := by
  rw [spread, spread, length_events_consume, rest_consume, h, List.drop_one, List.tail_cons,
    List.length_cons]
  omega

theorem spread_skipUntil (ks : List Kind) {ts : List Token} {m : Machine} (h : m.rest = ts) :
    (skipUntil ks ts m).spread = m.spread := by
  induction ts generalizing m with
  | nil => rfl
  | cons t ts ih =>
      unfold skipUntil
      split
      · rfl
      · rw [ih (by rw [rest_consume, h]; rfl), spread_consume_of_cons h]

theorem spread_leave_le (m : Machine) : m.leave.spread ≤ m.spread + 1 := by
  unfold leave
  split
  · exact Nat.le_succ _
  · dsimp only
    split
    · simp only [spread, List.length_cons]
      omega
    · rw [spread_addKid]
      simp only [spread, List.length_cons]
      omega

theorem spread_fold_le (m : Machine) : m.fold.spread ≤ m.spread + 2 := by
  unfold fold
  split
  · omega
  · simp only [spread, List.length_cons]
    omega

theorem spread_enter (r : Rule) (level : Nat) (m : Machine) :
    (m.enter r level).spread = m.spread + 1 := by
  simp only [spread, enter, List.length_cons]
  omega

theorem spread_giveUp_le (m : Machine) : m.giveUp.spread ≤ m.spread + 2 := by
  have hskip : ∀ (m' : Machine) (givenUp : Option (Nat × List Site)),
      (skipUntil m'.resume m'.rest { m' with givenUp := givenUp }).leave.spread ≤
        m'.spread + 1 := by
    intro m' givenUp
    refine (spread_leave_le _).trans (Nat.add_le_add_right (Nat.le_of_eq ?_) 1)
    exact spread_skipUntil m'.resume (m := { m' with givenUp := givenUp }) rfl
  rw [giveUp_eq m _ rfl]
  split
  · exact (hskip m.consume _).trans (Nat.add_le_add_right (spread_consume_le m) 1)
  · exact (hskip m _).trans (Nat.le_succ _)

theorem spread_failMismatched_le (m : Machine) : m.failMismatched.spread ≤ m.spread + 2 := by
  rw [← spread_complain m (.mismatched m.token.text m.expected)]
  exact spread_giveUp_le _

theorem spread_failNoWay_le (m : Machine) (offset : Nat) :
    (m.failNoWay offset).spread ≤ m.spread + 2 := by
  refine (spread_giveUp_le _).trans ?_
  rw [spread_complainAt]

theorem spread_drop?_le {m m' : Machine} (h : m.drop? = some m') : m'.spread ≤ m.spread + 1 := by
  unfold drop? at h
  split at h
  · obtain rfl := Option.some.inj h
    rw [spread_settle, ← spread_complain m (.extraneous m.token.text m.expected)]
    exact spread_consume_le _
  · cases h

theorem spread_accept_le (m : Machine) (ks : List Kind) (supposed : List Tree)
    (rest : List Item) : (m.accept ks supposed rest).spread ≤ m.spread + 2 := by
  unfold accept
  split
  · rw [spread_setTodo]
    exact (spread_consume_le _).trans (Nat.le_succ _)
  · split
    · next m' hm =>
        rw [spread_setTodo]
        exact (spread_consume_le m').trans (Nat.add_le_add_right (spread_drop?_le hm) 1)
    · split
      · rw [spread_setTodo, spread_addKids, spread_complain]
        exact Nat.le_add_right _ _
      · exact spread_failMismatched_le m

theorem spread_check_le {m : Machine} {afterRound : Bool} {go : Machine → Machine}
    (hgo : ∀ m' : Machine, (go m').spread ≤ m'.spread + 2) :
    (m.check afterRound go).spread ≤ m.spread + 3 := by
  unfold check
  split
  · exact (hgo m).trans (Nat.le_succ _)
  · split
    · refine (hgo _).trans ?_
      rw [spread_skipUntil _ rfl, spread_complain]
      exact Nat.le_succ _
    · split
      · next m' hm => exact (hgo m').trans (Nat.add_le_add_right (spread_drop?_le hm) 2)
      · exact (spread_failMismatched_le m).trans (Nat.le_succ _)

theorem spread_take_le (m : Machine) (ways : List (List Item)) (f : Forecast) :
    (m.take ways f).spread ≤ m.spread + 2 := by
  cases f with
  | stuck offset => exact spread_failNoWay_le m offset
  | way n =>
      rw [take, spread_setTodo]
      exact Nat.le_add_right _ _

/-- A step notes at most three events besides the tokens that it reads or passes over. -/
theorem spread_step_le (m : Machine) : m.step.spread ≤ m.spread + 3 := by
  unfold step
  split
  · exact Nat.le_add_right _ _
  · split
    · exact (spread_leave_le m).trans (by omega)
    · exact (spread_accept_le m _ _ _).trans (Nat.le_succ _)
    · exact (spread_accept_le m _ _ _).trans (Nat.le_succ _)
    · rw [spread_enter, spread_setTodo]
      omega
    · rw [spread_setTodo]
      exact (spread_fold_le m).trans (Nat.le_succ _)
    · exact spread_check_le fun m' => spread_take_le m' _ _
    · exact spread_check_le fun m' => spread_take_le m' _ _
    · exact spread_check_le fun m' => by simp
    · exact spread_check_le fun m' => by simp

theorem spread_run_le (n : Nat) (m : Machine) :
    (m.run n).spread ≤ m.spread + 3 * m.steps n := by
  induction n generalizing m with
  | zero => exact Nat.le_refl _
  | succ n ih =>
      by_cases hs : m.stack = []
      · rw [run_of_nil hs]
        exact Nat.le_add_right _ _
      · have hstep := spread_step_le m
        have hrest := ih m.step
        rw [run_succ hs, steps_succ hs]
        omega

/-! ### What a reading leaves -/

/-- The rule at the bottom of the stack is the one from which the reading started, and its tree is
the result once it is left. -/
def Rooted (r : Rule) (m : Machine) : Prop :=
  (m.stack.map Frame.rule).getLast? = some r ∨
    (m.stack = [] ∧ ∃ kids, m.result = some (.node r kids))

theorem rooted_facing (r : Rule) (tokens : List Token) (place : Nat × Nat) (length : Nat) :
    Rooted r (facing r tokens place length) := .inl rfl

namespace Rooted

variable {r : Rule} {m m' : Machine}

/-- What neither enters nor leaves a rule keeps the root. -/
theorem of_rules (h : Rooted r m) (hrules : m'.stack.map Frame.rule = m.stack.map Frame.rule)
    (hresult : m'.result = m.result) : Rooted r m' := by
  rcases h with hlast | ⟨hend, hr⟩
  · left
    rwa [hrules]
  · right
    rw [hend] at hrules
    exact ⟨List.map_eq_nil_iff.mp hrules, hresult ▸ hr⟩

theorem addKid (h : Rooted r m) (t : Tree) : Rooted r (m.addKid t) := by
  apply h.of_rules <;> cases hs : m.stack <;> simp [Machine.addKid, hs]

theorem setTodo (h : Rooted r m) (todo : List Item) : Rooted r (m.setTodo todo) := by
  apply h.of_rules <;> cases hs : m.stack <;> simp [Machine.setTodo, hs]

theorem fold (h : Rooted r m) : Rooted r m.fold := by
  apply h.of_rules <;> cases hs : m.stack <;> simp [Machine.fold, hs]

theorem consume (h : Rooted r m) (hs : m.stack ≠ []) : Rooted r m.consume := by
  obtain ⟨f, fs, hs⟩ := List.exists_cons_of_ne_nil hs
  rw [consume_of_stack hs]
  exact h.of_rules (by simp [hs]) rfl

theorem leave (h : Rooted r m) : Rooted r m.leave := by
  cases hs : m.stack with
  | nil => rwa [Machine.leave, hs]
  | cons f fs =>
      have hlast := h.resolve_right fun hend => by simp [hs] at hend
      rw [hs] at hlast
      cases fs with
      | nil =>
          obtain rfl : f.rule = r := Option.some.inj hlast
          right
          simp [Machine.leave, hs]
      | cons g gs =>
          left
          simpa [Machine.leave, Machine.addKid, hs] using hlast

theorem enter (h : Rooted r m) (hs : m.stack ≠ []) (x : Rule) (level : Nat) :
    Rooted r (m.enter x level) := by
  obtain ⟨f, fs, hs⟩ := List.exists_cons_of_ne_nil hs
  have hlast := h.resolve_right fun hend => by simp [hs] at hend
  left
  rw [hs] at hlast
  simpa [Machine.enter, hs] using hlast

theorem stroke {may : Item → Prop} (h : Rooted r m) (hm : Stroke may m m') : Rooted r m' := by
  cases hm with
  | setTodo todo => exact h.setTodo todo
  | settle => exact h.of_rules rfl rfl
  | complain t trouble =>
      refine h.of_rules (by rw [stack_complainAt]) ?_
      unfold complainAt
      split <;> rfl
  | note givenUp => exact h.of_rules rfl rfl
  | consume hs => exact h.consume hs
  | suppose k hk => exact h.addKid _
  | leave hs => exact h.leave
  | fold => exact h.fold
  | enter x level hs hr => exact h.enter hs x level

theorem strokes {may : Item → Prop} (h : Rooted r m) (hm : Strokes may m m') : Rooted r m' := by
  induction hm with
  | refl => exact h
  | tail _ hstroke ih => exact ih.stroke hstroke

theorem run (h : Rooted r m) (n : Nat) : Rooted r (m.run n) := h.strokes (strokes_run n m)

end Rooted

/-- From every rule and before all tokens, the reading ends with a tree of the rule. The work that
is done up to then is bounded by the number of tokens, and no step is taken after it. -/
theorem effort_facing_le (r : Rule) (tokens : List Token) (place : Nat × Nat) (length : Nat) :
    (∀ n, (facing r tokens place length).steps n +
        ((facing r tokens place length).run n).events.length ≤
          4 * bound tokens.length + tokens.length + 1) ∧
      ∀ n, bound tokens.length ≤ n →
        (facing r tokens place length).run n =
            (facing r tokens place length).run (bound tokens.length) ∧
          ((facing r tokens place length).run n).stack = [] ∧
          ∃ kids, ((facing r tokens place length).run n).result = some (.node r kids) := by
  have hplaced : Placed (facing r tokens place length).view.tasks := placed_start r []
  have hmeasure := measure_facing_le r tokens place length
  constructor
  · intro n
    have hsteps := (steps_le_measure hplaced rfl n).trans hmeasure
    have hspread := spread_run_le n (facing r tokens place length)
    have hstart : (facing r tokens place length).spread = 1 + tokens.length := rfl
    have hevents := Nat.le_add_right ((facing r tokens place length).run n).events.length
      ((facing r tokens place length).run n).rest.length
    rw [spread, hstart] at hspread
    omega
  · intro n hn
    have hend : ∀ k, bound tokens.length ≤ k → ((facing r tokens place length).run k).stack = [] :=
      fun k hk => stack_run_eq_nil hplaced rfl (hmeasure.trans hk)
    refine ⟨?_, hend n hn, ?_⟩
    · rw [← Nat.add_sub_cancel' hn, run_add, run_of_nil (hend _ (Nat.le_refl _))]
    · have hroot := (rooted_facing r tokens place length).run n
      exact (hroot.resolve_left (by simp [hend n hn])).2

end Machine

end CommandShell.Parse
