import CommandShell.Proofs.Completeness

/-! # Rules are left again

Whatever is wrong with a text, a step of the reader works on the rule on top only: the rule is given
tokens, it enters another rule, or it is left. So a rule that has been entered is left some steps
later, and the rule below it has one child more then. -/

namespace CommandShell

/-- A tree without nodes of commands. -/
inductive Tree.Simple : Tree → Prop
  | leaf (t : Token) : Simple (.leaf t)
  | skipped (t : Token) : Simple (.skipped t)
  | missing (k : Kind) : Simple (.missing k)
  | node {r : Rule} {kids : List Tree} (hr : r ≠ .command) (h : ∀ x ∈ kids, Simple x) :
      Simple (.node r kids)

theorem Tree.simple_of_rule? {t : Tree} (h : t.rule? = none) : t.Simple := by
  cases t with
  | node r kids => cases h
  | leaf t => exact .leaf t
  | skipped t => exact .skipped t
  | missing k => exact .missing k

namespace Grammar

/-- The rules in which commands can be. -/
def outerRules : List Rule := [.line, .command]

/-- The rule that is read next. -/
def callee? : List Item → Option Rule
  | .rule s _ :: _ => some s
  | _ => none

/-- There are no commands in pipes and calls. -/
theorem callee_notMem_outerRules {r s : Rule} (hr : r ∉ outerRules) {level : Nat}
    {rest : List Item} (h : .rule s level :: rest ∈ places r) : s ∉ outerRules := by
  have all : ∀ r : Rule, r ∉ outerRules → ∀ todo ∈ along (body r), ∀ s ∈ callee? todo,
      s ∉ outerRules := by
    intro r
    cases r <;> decide +kernel
  exact all r hr _ (mem_along h) s rfl

end Grammar

namespace Parse

open Grammar CommandShell.Tree

namespace Machine

/-- Only the rule on top has been worked on: it has been given tokens and is at another place. -/
structure OnTop (m m' : Machine) : Prop where
  stack : ∀ {f : Frame} {fs : List Frame}, m.stack = f :: fs →
    ∃ todo new, m'.stack = ⟨f.rule, f.level, todo, f.kids ++ new⟩ :: fs ∧ ∀ x ∈ new, x.rule? = none
  rest : m'.rest <:+ m.rest
  finish : m'.finish = m.finish
  result : m'.result = m.result

/-- The rule on top has been worked on, and perhaps left. -/
inductive Tends (m : Machine) : Machine → Prop
  | stay {m' : Machine} (h : OnTop m m') : Tends m m'
  | leave {m' : Machine} (h : OnTop m m') : Tends m m'.leave

namespace OnTop

variable {m m' m'' : Machine}

/-- The stack is the same. -/
theorem of_stack (hs : m'.stack = m.stack) (hr : m'.rest <:+ m.rest) (hf : m'.finish = m.finish)
    (hres : m'.result = m.result) : OnTop m m' := by
  refine ⟨?_, hr, hf, hres⟩
  intro f fs h
  exact ⟨f.todo, [], by simpa [hs] using h, by simp⟩

theorem refl (m : Machine) : OnTop m m := of_stack rfl (List.suffix_refl _) rfl rfl

theorem trans (h : OnTop m m') (h' : OnTop m' m'') : OnTop m m'' := by
  refine ⟨?_, h'.rest.trans h.rest, h'.finish.trans h.finish, h'.result.trans h.result⟩
  intro f fs hs
  obtain ⟨todo, new, hs', hk⟩ := h.stack hs
  obtain ⟨todo', more, hs'', hk'⟩ := h'.stack hs'
  exact ⟨todo', new ++ more, by simpa using hs'', List.forall_mem_append.mpr ⟨hk, hk'⟩⟩

theorem setTodo (m : Machine) (todo : List Item) : OnTop m (m.setTodo todo) := by
  cases hs : m.stack with
  | nil => simpa [Machine.setTodo, hs] using OnTop.refl m
  | cons f fs =>
      rw [setTodo_of_stack hs]
      refine ⟨?_, List.suffix_refl _, rfl, rfl⟩
      intro g gs h
      obtain ⟨rfl, rfl⟩ := List.cons.inj (hs.symm.trans h)
      exact ⟨todo, [], by simp, by simp⟩

theorem settle (m : Machine) : OnTop m m.settle := of_stack rfl (List.suffix_refl _) rfl rfl

theorem complainAt (m : Machine) (t : Token) (trouble : Trouble) :
    OnTop m (m.complainAt t trouble) := by
  unfold Machine.complainAt
  split
  · exact refl m
  · exact of_stack rfl (List.suffix_refl _) rfl rfl

theorem addKid (m : Machine) {t : Tree} (ht : t.rule? = none) : OnTop m (m.addKid t) := by
  cases hs : m.stack with
  | nil => simpa [Machine.addKid, hs] using OnTop.refl m
  | cons f fs =>
      rw [addKid_of_stack hs]
      refine ⟨?_, List.suffix_refl _, rfl, rfl⟩
      intro g gs h
      obtain ⟨rfl, rfl⟩ := List.cons.inj (hs.symm.trans h)
      exact ⟨f.todo, [t], rfl, by simpa using ht⟩

theorem addKids {ts : List Tree} (hts : ∀ t ∈ ts, t.rule? = none) (m : Machine) :
    OnTop m (ts.foldl Machine.addKid m) := by
  induction ts generalizing m with
  | nil => exact refl m
  | cons t ts ih =>
      exact (addKid m (hts t (by simp))).trans (ih (fun u hu => hts u (by simp [hu])) _)

theorem consume (hs : m.stack ≠ []) : OnTop m m.consume := by
  obtain ⟨f, fs, hs⟩ := List.exists_cons_of_ne_nil hs
  rw [consume_of_stack hs]
  refine ⟨?_, List.drop_suffix 1 m.rest, rfl, rfl⟩
  intro g gs h
  obtain ⟨rfl, rfl⟩ := List.cons.inj (hs.symm.trans h)
  refine ⟨f.todo, [m.grown], rfl, ?_⟩
  cases hr : m.recovering <;> simp [Machine.grown, hr, rule?]

theorem skipUntil (ks : List Kind) (ts : List Token) (hs : m.stack ≠ []) :
    OnTop m (Machine.skipUntil ks ts m) := by
  induction ts generalizing m with
  | nil => exact refl m
  | cons t ts ih =>
      unfold Machine.skipUntil
      split
      · exact refl m
      · exact (consume hs).trans (ih (stack_consume_ne_nil hs))

theorem stack_ne_nil (h : OnTop m m') (hs : m.stack ≠ []) : m'.stack ≠ [] := by
  obtain ⟨f, fs, hs⟩ := List.exists_cons_of_ne_nil hs
  obtain ⟨todo, kids, hs', -⟩ := h.stack hs
  simp [hs']

theorem tends (h : OnTop m m') (h' : Tends m' m'') : Tends m m'' := by
  cases h' with
  | stay h' => exact .stay (h.trans h')
  | leave h' => exact .leave (h.trans h')

end OnTop

theorem Tends.rest_suffix {m m' : Machine} (h : Tends m m') : m'.rest <:+ m.rest := by
  cases h with
  | stay h => exact h.rest
  | @leave m₁ h =>
      rw [show m₁.leave.rest = m₁.rest from congrArg View.rest (view_leave m₁)]
      exact h.rest

section Tending

variable {m : Machine}

/-- A rule that is given up is left after it has been given some tokens. -/
def GivesUp (m m' : Machine) : Prop := ∃ m₁, OnTop m m₁ ∧ m' = m₁.leave

theorem OnTop.givesUp {m' m'' : Machine} (h : OnTop m m') (h' : GivesUp m' m'') :
    GivesUp m m'' := by
  obtain ⟨m₁, hm, rfl⟩ := h'
  exact ⟨m₁, h.trans hm, rfl⟩

theorem GivesUp.tends {m' : Machine} (h : GivesUp m m') : Tends m m' := by
  obtain ⟨m₁, hm, rfl⟩ := h
  exact .leave hm

theorem givesUp_giveUp (hs : m.stack ≠ []) : GivesUp m m.giveUp := by
  have hskip : ∀ (m' : Machine) (givenUp : Option (Nat × List Site)), OnTop m m' →
      OnTop m (skipUntil m'.resume m'.rest { m' with givenUp := givenUp }) := by
    intro m' givenUp hm
    have hs' : ({ m' with givenUp := givenUp } : Machine).stack ≠ [] := hm.stack_ne_nil hs
    have hnote : OnTop m' { m' with givenUp := givenUp } :=
      .of_stack rfl (List.suffix_refl _) rfl rfl
    exact hm.trans (hnote.trans (.skipUntil _ _ hs'))
  rw [giveUp_eq m _ rfl]
  split
  · exact ⟨_, hskip _ _ (.consume hs), rfl⟩
  · exact ⟨_, hskip _ _ (.refl m), rfl⟩

theorem givesUp_failMismatched (hs : m.stack ≠ []) : GivesUp m m.failMismatched :=
  (OnTop.complainAt m _ _).givesUp (givesUp_giveUp (by simpa using hs))

theorem givesUp_failNoWay (hs : m.stack ≠ []) (offset : Nat) : GivesUp m (m.failNoWay offset) :=
  (OnTop.complainAt m _ _).givesUp (givesUp_giveUp (by simpa using hs))

theorem onTop_drop? {m' : Machine} (hs : m.stack ≠ []) (hm : m.drop? = some m') : OnTop m m' := by
  unfold drop? at hm
  split at hm
  · obtain rfl := Option.some.inj hm
    have hcomplain := OnTop.complainAt m m.token (.extraneous m.token.text m.expected)
    exact (hcomplain.trans (.consume (hcomplain.stack_ne_nil hs))).trans (.settle _)
  · cases hm

theorem tends_accept (hs : m.stack ≠ []) (ks : List Kind) {supposed : List Tree}
    (hsup : ∀ t ∈ supposed, t.rule? = none) (rest : List Item) :
    Tends m (m.accept ks supposed rest) := by
  unfold accept
  split
  · have hsettle := OnTop.settle m
    exact .stay ((hsettle.trans (.consume hs)).trans (.setTodo _ rest))
  · split
    · next m' hm =>
        have hdrop := onTop_drop? hs hm
        exact .stay ((hdrop.trans (.consume (hdrop.stack_ne_nil hs))).trans (.setTodo _ rest))
    · split
      · have hcomplain := OnTop.complainAt m m.token (.missing m.expected m.token.text)
        exact .stay ((hcomplain.trans (.addKids hsup _)).trans (.setTodo _ rest))
      · exact (givesUp_failMismatched hs).tends

theorem tends_check {afterRound : Bool} {go : Machine → Machine} (hs : m.stack ≠ [])
    (hgo : ∀ m' : Machine, m'.stack ≠ [] → Tends m' (go m')) : Tends m (m.check afterRound go) := by
  unfold check
  split
  · exact hgo m hs
  · split
    · have hcomplain := OnTop.complainAt m m.token (.extraneous m.token.text m.expected)
      have hs' := hcomplain.stack_ne_nil hs
      refine (hcomplain.trans (.skipUntil _ _ hs')).tends (hgo _ ?_)
      exact (OnTop.skipUntil _ _ hs').stack_ne_nil hs'
    · split
      · next m' hm =>
          have hdrop := onTop_drop? hs hm
          exact hdrop.tends (hgo m' (hdrop.stack_ne_nil hs))
      · exact (givesUp_failMismatched hs).tends

theorem tends_take (hs : m.stack ≠ []) (ways : List (List Item)) (f : Forecast) :
    Tends m (m.take ways f) := by
  cases f with
  | stuck offset => exact (givesUp_failNoWay hs offset).tends
  | way n => exact .stay (.setTodo _ _)

/-- All that a step can do: work on the rule on top and perhaps leave it, make what has been read of
it its first part, or enter another rule. -/
theorem step_cases {f : Frame} {fs : List Frame} (hs : m.stack = f :: fs) :
    Tends m m.step ∨ (∃ rest, m.step = m.fold.setTodo rest) ∨
      ∃ r level rest, f.todo = .rule r level :: rest ∧ m.step = (m.setTodo rest).enter r level := by
  have hne : m.stack ≠ [] := by simp [hs]
  unfold step
  simp only [hs]
  cases hf : f.todo with
  | nil => exact Or.inl (.leave (.refl m))
  | cons x rest =>
      cases x with
      | token k => exact Or.inl (tends_accept hne _ (by simp [rule?]) rest)
      | oneOf ks => exact Or.inl (tends_accept hne _ (by simp) rest)
      | rule r level => exact Or.inr (Or.inr ⟨r, level, rest, rfl, rfl⟩)
      | fold limit => exact Or.inr (Or.inl ⟨rest, rfl⟩)
      | choice g alternatives | optional g body =>
          exact Or.inl (tends_check hne fun m' hm => tends_take hm _ _)
      | loop g body | again g body =>
          exact Or.inl (tends_check hne fun m' _ => .stay (.setTodo m' _))

end Tending

/-! ### Steps after steps -/

/-- The reader comes from one state to another. -/
def Reaches (m m' : Machine) : Prop := ∃ n, m' = m.run n

namespace Reaches

variable {m m' m'' : Machine}

theorem refl (m : Machine) : Reaches m m := ⟨0, rfl⟩

theorem trans (h : Reaches m m') (h' : Reaches m' m'') : Reaches m m'' := by
  obtain ⟨a, rfl⟩ := h
  obtain ⟨b, rfl⟩ := h'
  exact ⟨a + b, (run_add a b m).symm⟩

theorem step {f : Frame} {fs : List Frame} (hs : m.stack = f :: fs) : Reaches m m.step :=
  ⟨1, by simp [run, hs]⟩

theorem placed (h : Reaches m m') (hp : Placed m.view.tasks) : Placed m'.view.tasks := by
  obtain ⟨n, rfl⟩ := h
  induction n generalizing m with
  | zero => exact hp
  | succ n ih =>
      cases hs : m.stack with
      | nil => rwa [run_of_nil hs]
      | cons f fs =>
          rw [run_succ (by simp [hs])]
          exact ih ((act_step hs).placed hp)

theorem rest_suffix (h : Reaches m m') : m'.rest <:+ m.rest := by
  obtain ⟨n, rfl⟩ := h
  induction n generalizing m with
  | zero => exact List.suffix_refl _
  | succ n ih =>
      cases hs : m.stack with
      | nil => rw [run_of_nil hs]
      | cons f fs =>
          rw [run_succ (by simp [hs])]
          refine ih.trans ?_
          rcases step_cases hs with htends | ⟨rest, hstep⟩ | ⟨r, level, rest, -, hstep⟩
          · exact htends.rest_suffix
          · rw [hstep, fold_of_stack hs]
          · rw [hstep, setTodo_of_stack hs]
            exact List.suffix_refl _

theorem finish_eq (h : Reaches m m') : m'.finish = m.finish := by
  obtain ⟨n, rfl⟩ := h
  induction n generalizing m with
  | zero => rfl
  | succ n ih =>
      cases hs : m.stack with
      | nil => rw [run_of_nil hs]
      | cons f fs =>
          rw [run_succ (by simp [hs]), ih]
          exact (act_step hs).finish_eq

end Reaches

/-! ### A rule that has been entered -/

/-- A rule is being read above others, with rules that it calls on top of it. -/
def Inside (r : Rule) (below stack : List Frame) : Prop :=
  ∃ upper f, stack = upper ++ f :: below ∧ f.rule = r ∧
    ∀ g ∈ upper ++ [f], g.rule ∉ outerRules ∧ ∀ x ∈ g.kids, x.Simple

/-- A rule has been read, and its tree belongs to the rule below. -/
def Returned (r : Rule) (below stack : List Frame) : Prop :=
  ∃ kids, (∀ x ∈ kids, Tree.Simple x) ∧
    ∃ g gs, below = g :: gs ∧ stack = { g with kids := g.kids ++ [.node r kids] } :: gs

section Inside

variable {m : Machine} {r : Rule} {below : List Frame}

theorem not_command {s : Rule} (h : s ∉ outerRules) : s ≠ .command := by
  rintro rfl
  exact h (by decide)

/-- The top of a stack on which a rule is being read. -/
theorem Inside.top {stack : List Frame} (h : Inside r below stack) :
    ∃ f fs, stack = f :: fs ∧ f.rule ∉ outerRules ∧ (∀ x ∈ f.kids, x.Simple) ∧
      ∀ todo kids, (∀ x ∈ kids, x.Simple) →
        Inside r below (⟨f.rule, f.level, todo, kids⟩ :: fs) := by
  obtain ⟨upper, f, rfl, hf, hall⟩ := h
  cases upper with
  | nil =>
      obtain ⟨hrule, hkids⟩ := hall f (by simp)
      refine ⟨f, below, rfl, hrule, hkids, fun todo kids hk => ?_⟩
      exact ⟨[], _, rfl, hf, by simpa using ⟨hrule, hk⟩⟩
  | cons u us =>
      obtain ⟨hrule, hkids⟩ := hall u (by simp)
      refine ⟨u, us ++ f :: below, rfl, hrule, hkids, fun todo kids hk => ?_⟩
      refine ⟨⟨u.rule, u.level, todo, kids⟩ :: us, f, rfl, hf, ?_⟩
      exact List.forall_mem_cons.mpr ⟨⟨hrule, hk⟩, fun g hg => hall g (List.mem_cons_of_mem u hg)⟩

theorem Inside.onTop {m' : Machine} (h : Inside r below m.stack) (hm : OnTop m m') :
    Inside r below m'.stack := by
  obtain ⟨f, fs, hs, -, hkids, hchange⟩ := h.top
  obtain ⟨todo, new, hs', hnew⟩ := hm.stack hs
  rw [hs']
  refine hchange todo _ (List.forall_mem_append.mpr ⟨hkids, fun x hx => ?_⟩)
  exact simple_of_rule? (hnew x hx)

theorem Inside.fold (h : Inside r below m.stack) (rest : List Item) :
    Inside r below (m.fold.setTodo rest).stack := by
  obtain ⟨f, fs, hs, hrule, hkids, hchange⟩ := h.top
  rw [fold_of_stack hs]
  exact hchange rest _ (by simpa using Simple.node (not_command hrule) hkids)

theorem Inside.enter (h : Inside r below m.stack) {s : Rule} {level : Nat} (hs : s ∉ outerRules) :
    Inside r below (m.enter s level).stack := by
  obtain ⟨upper, f, hstack, hf, hall⟩ := h
  refine ⟨⟨s, level, body s, []⟩ :: upper, f, by simp [Machine.enter, hstack], hf, ?_⟩
  exact List.forall_mem_cons.mpr ⟨⟨hs, by simp⟩, hall⟩

/-- When a rule on top is left, it is the one that was entered or one above it. -/
theorem Inside.leave (h : Inside r below m.stack) (hb : below ≠ []) :
    Inside r below m.leave.stack ∨ Returned r below m.leave.stack := by
  obtain ⟨upper, f, hs, hf, hall⟩ := h
  cases upper with
  | nil =>
      obtain ⟨g, gs, rfl⟩ := List.exists_cons_of_ne_nil hb
      refine Or.inr ⟨f.kids, (hall f (by simp)).2, g, gs, rfl, ?_⟩
      rw [leave_of_stack hs, hf]
  | cons u us =>
      have hu := hall u (by simp)
      have hnode : Tree.Simple (.node u.rule u.kids) := .node (not_command hu.1) hu.2
      have hrest : Inside r below (us ++ f :: below) :=
        ⟨us, f, rfl, hf, fun g hg => hall g (by simp [hg])⟩
      obtain ⟨v, vs, hvs, -, hkids, hchange⟩ := hrest.top
      left
      rw [leave_of_stack (hs.trans (congrArg (u :: ·) hvs))]
      exact hchange v.todo _ (List.forall_mem_append.mpr ⟨hkids, by simpa using hnode⟩)

theorem Inside.tends {m' : Machine} (h : Inside r below m.stack) (hb : below ≠ [])
    (hm : Tends m m') : Inside r below m'.stack ∨ Returned r below m'.stack := by
  cases hm with
  | stay hm => exact Or.inl (h.onTop hm)
  | leave hm => exact (h.onTop hm).leave hb

theorem Inside.step (h : Inside r below m.stack) (hb : below ≠ []) (hp : Placed m.view.tasks) :
    Inside r below m.step.stack ∨ Returned r below m.step.stack := by
  obtain ⟨f, fs, hs, hrule, hkids, -⟩ := h.top
  rcases step_cases hs with htends | ⟨rest, hstep⟩ | ⟨s, level, rest, ht, hstep⟩
  · exact h.tends hb htends
  · rw [hstep]
    exact Or.inl (h.fold rest)
  · have hplace : .rule s level :: rest ∈ places f.rule := by
      rw [view, hs] at hp
      exact ht ▸ hp.1
    rw [hstep]
    exact Or.inl ((h.onTop (.setTodo m rest)).enter (callee_notMem_outerRules hrule hplace))

/-- A rule that has been entered is left some steps later. -/
theorem Inside.returns (h : Inside r below m.stack) (hb : below ≠ []) (hp : Placed m.view.tasks)
    (hf : m.finish.kind = .finish) : ∃ m', Reaches m m' ∧ Returned r below m'.stack := by
  have hend := stack_run_eq_nil hp hf (Nat.le_refl _)
  generalize m.view.measure = n at hend
  -- The reading comes to its end, and the stack is not empty as long as the rule is in it.
  induction n generalizing m with
  | zero =>
      obtain ⟨f, fs, hs, -⟩ := h.top
      rw [run, hs] at hend
      cases hend
  | succ n ih =>
      obtain ⟨f, fs, hs, -⟩ := h.top
      rw [run_succ (by simp [hs])] at hend
      have hfirst := Reaches.step hs
      rcases h.step hb hp with hin | hout
      · have hf' : m.step.finish.kind = .finish := by rwa [hfirst.finish_eq]
        obtain ⟨m', hm', hr⟩ := ih hin (hfirst.placed hp) hf' hend
        exact ⟨m', hfirst.trans hm', hr⟩
      · exact ⟨m.step, hfirst, hout⟩

end Inside

end Machine

end Parse

end CommandShell
