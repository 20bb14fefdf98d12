import CommandShell.Proofs.Derivation
import CommandShell.Proofs.Moves

/-! # Readings without a complaint

A text that is read without a complaint gives a tree of the grammar, and the leaves of that tree
are the first tokens of the text. Both are invariants of the moves of the reader: every frame of
the stack can still become a node of its rule, and the tokens in the stack and those still to be
read are together the tokens of the text. -/

namespace CommandShell.Parse

open CommandShell.Tree Grammar Relation

theorem Turn.grows {r : Rule} {level : Nat} {rest : List Item} {x : Item} {todo : List Item}
    (h : Turn level rest x todo) {kids out : List Tree} (hg : GrowsAll r level todo kids out) :
    GrowsAll r level (x :: rest) kids out := by
  cases h with
  | choice hx =>
      obtain ⟨mid, hxs, hrest⟩ := growsAll_append.mp hg
      exact ⟨mid, growsSome_iff.mpr ⟨_, hx, hxs⟩, hrest⟩
  | take =>
      obtain ⟨mid, hbody, hrest⟩ := growsAll_append.mp hg
      exact ⟨mid, Or.inr hbody, hrest⟩
  | pass => exact ⟨kids, Or.inl rfl, hg⟩
  | start ho =>
      obtain ⟨mid, hbody, end', hagain, hrest⟩ := growsAll_append.mp hg
      exact ⟨end', ReflTransGen.head ⟨ho, hbody⟩ hagain, hrest⟩
  | skip => exact ⟨kids, ReflTransGen.refl, hg⟩
  | round ho =>
      obtain ⟨mid, hbody, end', hagain, hrest⟩ := growsAll_append.mp hg
      exact ⟨end', ReflTransGen.head ⟨ho, hbody⟩ hagain, hrest⟩
  | stop => exact ⟨kids, ReflTransGen.refl, hg⟩

/-- Whatever a frame becomes when the rest of its rule is read after `kids` is a tree of the
rule. -/
def Frame.Promises (f : Frame) (todo : List Item) (kids : List Tree) : Prop :=
  guidedAll todo = true ∧
    ∀ out, GrowsAll f.rule f.level todo kids out → Shape f.rule f.level (.node f.rule out)

/-- Frames that wait for a tree of a rule at a level. -/
def Waiting (start : Rule) : List Frame → Rule → Nat → Prop
  | [], r, level => r = start ∧ level = 0
  | f :: fs, r, level =>
      (∀ t, Shape r level t → f.Promises f.todo (f.kids ++ [t])) ∧ Waiting start fs f.rule f.level

/-- A stack on which a tree of the rule with which the reading started is being read. -/
def Stacked (start : Rule) : List Frame → Prop
  | [] => True
  | f :: fs => f.Promises f.todo f.kids ∧ Waiting start fs f.rule f.level

/-- The tokens in a stack, in the order in which they were read. -/
def stackTokens : List Frame → List Token
  | [] => []
  | f :: fs => stackTokens fs ++ tokensAll f.kids

/-- What holds of a reading of tokens that has not complained. -/
structure Sound (start : Rule) (ts : List Token) (m : Machine) : Prop where
  calm : m.recovering = false
  stack : Stacked start m.stack
  running : m.stack ≠ [] → m.result = none
  result : ∀ t, m.result = some t → Shape start 0 t ∧ t.tokens ++ m.rest = ts
  finish : m.finish.kind = .finish
  tokens : m.stack ≠ [] → stackTokens m.stack ++ m.rest = ts

theorem tokensAll_append : ∀ xs ys : List Tree,
    tokensAll (xs ++ ys) = tokensAll xs ++ tokensAll ys
  | [], ys => by simp
  | x :: xs, ys => by simp [tokensAll_append xs ys]

theorem sound_start {start : Rule} (hstart : start ≠ .line) (text : Text) :
    Sound start (Token.scan text) (Machine.start start text) where
  calm := rfl
  stack := ⟨⟨guidedAll_body hstart, fun _ h => shape_of_grows h⟩, rfl, rfl⟩
  running := fun _ => rfl
  result := by
    intro t ht
    cases ht
  finish := rfl
  tokens := fun _ => rfl

namespace Machine

variable {m : Machine} {f : Frame} {fs : List Frame}

/-! ### What the moves do to the stack -/

theorem setTodo_of_stack (hs : m.stack = f :: fs) (todo : List Item) :
    m.setTodo todo = { m with stack := { f with todo := todo } :: fs } := by
  simp [setTodo, hs]

theorem fold_of_stack (hs : m.stack = f :: fs) (rest : List Item) :
    m.fold.setTodo rest =
      { m with
        stack := { f with todo := rest, kids := [.node f.rule f.kids] } :: fs
        events := .enter f.rule :: .leave f.rule :: m.events } := by
  simp [fold, setTodo, hs]

theorem read_of_stack (hs : m.stack = f :: fs) (rest : List Item) :
    m.settle.consume.setTodo rest =
      { m with
        stack := { f with todo := rest, kids := f.kids ++ [.leaf m.token] } :: fs
        rest := m.rest.drop 1
        count := if m.rest.isEmpty then m.count else m.count + 1
        recovering := false
        givenUp := none
        events := .leaf m.token.text :: m.events } := by
  simp [settle, consume, addKid, setTodo, hs, token]

theorem leave_of_last (hs : m.stack = [f]) :
    m.leave =
      { m with
        stack := []
        events := .leave f.rule :: m.events
        result := some (.node f.rule f.kids) } := by
  simp [leave, hs]

theorem leave_of_stack {g : Frame} (hs : m.stack = f :: g :: fs) :
    m.leave =
      { m with
        stack := { g with kids := g.kids ++ [.node f.rule f.kids] } :: fs
        events := .leave f.rule :: m.events } := by
  simp [leave, addKid, hs]

end Machine

/-- A token other than the end of the text is the first of those still to be read. -/
theorem token_cons_drop {m : Machine} (hf : m.finish.kind = .finish) (hk : m.kind ≠ .finish) :
    m.token :: m.rest.drop 1 = m.rest := by
  cases hm : m.rest with
  | nil => exact absurd (by simp [Machine.kind, Machine.token, hm, hf]) hk
  | cons t rest => simp [Machine.token, hm]

namespace Sound

variable {start : Rule} {ts : List Token} {m : Machine} {f : Frame} {fs : List Frame}

/-- A move that changes only the frame on top keeps a reading sound. -/
theorem of_top (h : Sound start ts m) (hs : m.stack = f :: fs) {g : Frame} {m' : Machine}
    (hm : m'.stack = g :: fs) (hrule : g.rule = f.rule) (hlevel : g.level = f.level)
    (hp : g.Promises g.todo g.kids) (hc : m'.recovering = false) (hres : m'.result = m.result)
    (hf : m'.finish = m.finish)
    (ht : tokensAll g.kids ++ m'.rest = tokensAll f.kids ++ m.rest) :
    Sound start ts m' where
  calm := hc
  stack := by
    have hw := h.stack
    rw [hs] at hw
    rw [hm]
    refine ⟨hp, ?_⟩
    rw [hrule, hlevel]
    exact hw.2
  running := by
    intro _
    rw [hres]
    exact h.running (by simp [hs])
  result := by
    intro t hr
    rw [hres, h.running (by simp [hs])] at hr
    cases hr
  finish := by rw [hf, h.finish]
  tokens := by
    intro _
    have htok := h.tokens (by simp [hs])
    rw [hs] at htok
    rw [hm]
    simp only [stackTokens, List.append_assoc] at htok ⊢
    rw [ht, htok]

theorem top (h : Sound start ts m) (hs : m.stack = f :: fs) : f.Promises f.todo f.kids := by
  have hst := h.stack
  rw [hs] at hst
  exact hst.1

theorem waiting (h : Sound start ts m) (hs : m.stack = f :: fs) :
    Waiting start fs f.rule f.level := by
  have hst := h.stack
  rw [hs] at hst
  exact hst.2

/-- A token that fits is read. -/
theorem read (h : Sound start ts m) (hs : m.stack = f :: fs) {x : Item} {rest : List Item}
    (ht : f.todo = x :: rest) (hk : m.kind ≠ .finish)
    (hx : ∀ kids, Grows f.rule f.level x kids (kids ++ [.leaf m.token])) :
    Sound start ts (m.settle.consume.setTodo rest) := by
  have htop := h.top hs
  rw [ht] at htop
  rw [Machine.read_of_stack hs]
  refine h.of_top hs rfl rfl rfl ?_ rfl rfl rfl ?_
  · refine ⟨?_, fun out hout => htop.2 out ⟨_, hx f.kids, hout⟩⟩
    have hg := htop.1
    simp only [guidedAll, Bool.and_eq_true] at hg
    exact hg.2
  · have hi := token_cons_drop h.finish hk
    simp only [tokensAll_append, List.append_assoc]
    rw [show tokensAll [Tree.leaf m.token] = [m.token] from rfl, List.singleton_append, hi]

theorem leave (h : Sound start ts m) (hs : m.stack = f :: fs) (ht : f.todo = []) :
    Sound start ts m.leave := by
  have htop := h.top hs
  have hwait := h.waiting hs
  rw [ht] at htop
  have hshape : Shape f.rule f.level (.node f.rule f.kids) := htop.2 f.kids rfl
  have htok := h.tokens (by simp [hs])
  cases fs with
  | nil =>
      obtain ⟨hrule, hlevel⟩ := hwait
      rw [Machine.leave_of_last hs]
      refine ⟨h.calm, trivial, by simp, ?_, h.finish, by simp⟩
      intro t hr
      rw [← Option.some.inj hr]
      rw [hrule, hlevel] at hshape
      refine ⟨hrule ▸ hshape, ?_⟩
      rw [hs] at htok
      simpa [stackTokens] using htok
  | cons g gs =>
      obtain ⟨hg, hgs⟩ := hwait
      rw [Machine.leave_of_stack hs]
      refine ⟨h.calm, ⟨hg _ hshape, hgs⟩, ?_, ?_, h.finish, ?_⟩
      · intro _
        exact h.running (by simp [hs])
      · intro t hr
        rw [h.running (by simp [hs])] at hr
        cases hr
      · intro _
        rw [hs] at htok
        simpa [stackTokens, tokensAll_append] using htok

theorem enter (h : Sound start ts m) (hs : m.stack = f :: fs) {r : Rule} {level : Nat}
    {rest : List Item} (ht : f.todo = .rule r level :: rest) :
    Sound start ts ((m.setTodo rest).enter r level) := by
  have htop := h.top hs
  rw [ht] at htop
  obtain ⟨hr, hg⟩ : r ≠ .line ∧ guidedAll rest = true := by
    simpa [guidedAll, guided] using htop.1
  have htok := h.tokens (by simp [hs])
  have hwait := h.waiting hs
  have hnone : m.result = none := h.running (by simp [hs])
  rw [Machine.setTodo_of_stack hs]
  refine ⟨h.calm, ⟨⟨guidedAll_body hr, fun _ hb => shape_of_grows hb⟩, ?_, hwait⟩,
    fun _ => hnone, ?_, h.finish, ?_⟩
  · intro t hshape
    exact ⟨hg, fun out hout => htop.2 out ⟨_, ⟨t, hshape, rfl⟩, hout⟩⟩
  · intro t hr
    cases hnone.symm.trans hr
  · intro _
    rw [hs] at htok
    simpa [Machine.enter, stackTokens] using htok

theorem fold (h : Sound start ts m) (hs : m.stack = f :: fs) {limit : Nat} {rest : List Item}
    (ht : f.todo = .fold limit :: rest) : Sound start ts (m.fold.setTodo rest) := by
  have htop := h.top hs
  rw [ht] at htop
  rw [Machine.fold_of_stack hs]
  refine h.of_top hs rfl rfl rfl ?_ h.calm rfl rfl ?_
  · refine ⟨by simpa [guidedAll, guided] using htop.1, ?_⟩
    intro out hout
    exact htop.2 out ⟨_, rfl, hout⟩
  · simp

theorem turn (h : Sound start ts m) (hs : m.stack = f :: fs) {x : Item} {rest todo : List Item}
    (ht : f.todo = x :: rest) (hturn : Turn f.level rest x todo) :
    Sound start ts (m.setTodo todo) := by
  have htop := h.top hs
  rw [ht] at htop
  rw [Machine.setTodo_of_stack hs]
  refine h.of_top hs rfl rfl rfl ?_ h.calm rfl rfl rfl
  exact ⟨hturn.guidedAll htop.1, fun out hout => htop.2 out (hturn.grows hout)⟩

theorem move (h : Sound start ts m) {m' : Machine} (hm : Machine.Move m m') :
    Sound start ts m' := by
  cases hm with
  | leave hs ht => exact h.leave hs ht
  | token hs ht hk =>
      have hg := (h.top hs).1
      simp only [ht, guidedAll, guided, Bool.and_eq_true, decide_eq_true_eq] at hg
      have hne : m.kind ≠ .finish := fun he => hg.1 (List.mem_singleton.mp (he ▸ hk)).symm
      exact h.read hs ht hne fun kids => ⟨_, IsLeaf.leaf hk, rfl⟩
  | oneOf hs ht hk =>
      have hg := (h.top hs).1
      simp only [ht, guidedAll, guided, Bool.and_eq_true, decide_eq_true_eq] at hg
      have hne : m.kind ≠ .finish := fun he => hg.1 (he ▸ hk)
      exact h.read hs ht hne fun kids => ⟨_, IsLeaf.leaf hk, rfl⟩
  | enter hs ht => exact h.enter hs ht
  | fold hs ht => exact h.fold hs ht
  | turn hs ht hturn => exact h.turn hs ht hturn

/-- One step of a reading that does not complain up to its end. -/
theorem step (h : Sound start ts m) (hm : m.complaints = []) (hs : m.stack = f :: fs) {n : Nat}
    (hn : (m.step.run n).complaints = []) : Sound start ts m.step ∧ m.step.complaints = [] := by
  have hstep : m.step.complaints = [] := by
    have hle := Machine.le_run n m.step
    rw [hn] at hle
    exact List.length_eq_zero_iff.mp (Nat.le_zero.mp hle)
  exact ⟨h.move (Machine.step_move hs (h.top hs).1 h.calm (by simp [hstep, hm])), hstep⟩

/-- A reading that has not complained up to its end is sound at its end. -/
theorem run (h : Sound start ts m) (hm : m.complaints = []) {n : Nat}
    (hn : (m.run n).complaints = []) : Sound start ts (m.run n) := by
  induction n generalizing m with
  | zero => exact h
  | succ n ih =>
      unfold Machine.run at hn ⊢
      cases hs : m.stack with
      | nil => simpa [hs] using h
      | cons f fs =>
          simp only [hs, List.isEmpty_cons, Bool.false_eq_true, if_false] at hn ⊢
          obtain ⟨hsound, hcalm⟩ := h.step hm hs hn
          exact ih hsound hcalm hn

end Sound

/-- A text read without a complaint gives a tree of the rule, whose leaves are the first tokens of
the text; or the reading was not over within its bound and there is no tree. -/
theorem read_sound {r : Rule} (hr : r ≠ .line) {text : Text}
    (h : (read r text).complaints = []) :
    (read r text).tree = .node r [] ∨
      (Shape r 0 (read r text).tree ∧ (read r text).tree.tokens <+: Token.scan text) := by
  have hc : ((Machine.start r text).run (bound (Token.scan text).length)).complaints = [] := by
    simpa [read] using h
  have hsound := (sound_start hr text).run rfl hc
  cases hres : ((Machine.start r text).run (bound (Token.scan text).length)).result with
  | none => exact Or.inl (by simp [read, hres])
  | some t =>
      obtain ⟨hshape, htok⟩ := hsound.result t hres
      have ht : (read r text).tree = t := by simp [read, hres]
      rw [ht]
      exact Or.inr ⟨hshape, _, htok⟩

end CommandShell.Parse
