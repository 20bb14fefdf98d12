import CommandShell.Proofs.Outline
import CommandShell.Proofs.Recovery

/-! # Redirections show their signs

A redirection is entered only where its sign comes next. Even if it is given up at once, the sign is
passed over in it: no rule below a redirection can go on with a sign. So there is a text in every
redirection of every tree that is read. -/

namespace CommandShell

/-- A tree in which every redirection shows something. -/
inductive Tree.Signed : Tree → Prop
  | leaf (t : Token) : Signed (.leaf t)
  | skipped (t : Token) : Signed (.skipped t)
  | missing (k : Kind) : Signed (.missing k)
  | node {r : Rule} {kids : List Tree} (h : ∀ x ∈ kids, Signed x)
      (ht : r = .redirection → Tree.textAll kids ≠ []) : Signed (.node r kids)

theorem Tree.signed_of_rule? {t : Tree} (h : t.rule? = none) : t.Signed := by
  cases t with
  | node r kids => cases h
  | leaf t => exact .leaf t
  | skipped t => exact .skipped t
  | missing k => exact .missing k

namespace Grammar

/-- The kinds of the signs of redirections. -/
def signKinds : List Kind := [.less, .greater]

/-- Is a redirection read next? -/
def startsRedirection (todo : List Item) : Bool := callee? todo = some .redirection

/-- Is there a decision to be made? -/
def isDecision : List Item → Bool
  | .choice _ _ :: _ => true
  | .optional _ _ :: _ => true
  | .loop _ _ :: _ => true
  | .again _ _ :: _ => true
  | _ => false

theorem startsRedirection_body (r : Rule) : startsRedirection (body r) = false := by
  cases r <;> decide

theorem startsRedirection_successor {r : Rule} {todo next : List Item} (h : todo ∈ places r)
    (hd : isDecision todo = false) (hn : next ∈ successors todo) :
    startsRedirection next = false := by
  have all : ∀ r : Rule, ∀ todo ∈ along (body r), isDecision todo = false →
      ∀ next ∈ successors todo, startsRedirection next = false := by
    intro r
    cases r <;> decide +kernel
  exact all r todo (mem_along h) hd next hn

/-- A redirection is decided for only where its sign comes. -/
theorem mem_signKinds_of_turn {r : Rule} {todo next : List Item} {k : Kind} (h : todo ∈ places r)
    (hn : next ∈ turns k todo) (hs : startsRedirection next = true) : k ∈ signKinds := by
  have all : ∀ r : Rule, ∀ todo ∈ along (body r), ∀ k ∈ Kind.all, ∀ next ∈ turns k todo,
      startsRedirection next = true → k ∈ signKinds := by
    intro r
    cases r <;> decide +kernel
  exact all r todo (mem_along h) k (Kind.mem_all k) next hn hs

/-- The rules that can be below a redirection, and redirections themselves. -/
def redirectionChain : List Rule := [.line, .command, .pipe, .call, .atom, .redirection]

/-- No rule below a redirection goes on with a sign. -/
theorem redirectionChain_below {r s : Rule} {level : Nat} {rest : List Item}
    (hr : r ∈ redirectionChain) (h : .rule r level :: rest ∈ places s) :
    s ∈ redirectionChain ∧ ∀ k ∈ signKinds, k ∉ firstAll rest := by
  have all : ∀ s : Rule, ∀ todo ∈ along (body s), ∀ r ∈ callee? todo, r ∈ redirectionChain →
      s ∈ redirectionChain ∧ ∀ k ∈ signKinds, k ∉ firstAll todo.tail := by
    intro s
    cases s <;> decide +kernel
  exact all s _ (mem_along h) r rfl hr

end Grammar

namespace Parse

open Grammar CommandShell.Tree

/-! ### Before a redirection -/

theorem isDecision_token {x : Item} {ks : List Kind} (h : tokenKinds? x = some ks)
    (rest : List Item) : isDecision (x :: rest) = false := by
  cases x <;> first | rfl | cases h

namespace View

/-- If a redirection is read next, its sign comes next. -/
def Headed (v : View) : Prop :=
  ∀ t ∈ v.tasks.head?, startsRedirection t.todo = true → v.kind ∈ signKinds

variable {v v' : View}

theorem headed_of_not (h : ∀ t ∈ v.tasks.head?, startsRedirection t.todo = false) : Headed v := by
  intro t ht hs
  rw [h t ht] at hs
  cases hs

theorem headed_setTodo {t : Task} {ts : List Task} (hs : v.tasks = t :: ts) {next : List Item}
    (hn : startsRedirection next = false) : Headed (v.setTodo next) := by
  apply headed_of_not
  intro u hu
  rw [setTodo_of_tasks hs] at hu
  obtain rfl := Option.some.inj hu
  exact hn

/-- The rule below has been waiting for the one above it. -/
theorem headed_tail (hp : Placed v.tasks) (hs : v'.tasks = v.tasks.tail) : Headed v' := by
  apply headed_of_not
  intro u hu
  obtain ⟨us, hus⟩ := List.head?_eq_some_iff.mp hu
  rw [hs] at hus
  cases htasks : v.tasks with
  | nil => simp [htasks] at hus
  | cons t ts =>
      rw [htasks, List.tail_cons] at hus
      rw [htasks, hus] at hp
      exact startsRedirection_successor hp.2.1 rfl (by simp [successors])

theorem Act.headed (h : Act v v') (hp : Placed v.tasks) (hf : v.finish.kind = .finish) :
    Headed v' := by
  cases h with
  | leave hs ht => exact headed_tail hp (by simp [hs])
  | @fold t ts limit rest hs ht =>
      rw [hs] at hp
      exact headed_setTodo hs (startsRedirection_successor hp.1 (by simp [ht, isDecision])
        (by simp [ht, successors]))
  | @enter t ts r level rest hs ht =>
      apply headed_of_not
      intro u hu
      obtain rfl := Option.some.inj hu
      exact startsRedirection_body r
  | @read t ts x rest ks n hs ht hx hn =>
      rw [hs] at hp
      exact headed_setTodo (v := { v.advance n with givenUp := none }) hs
        (startsRedirection_successor hp.1 (ht ▸ isDecision_token hx rest)
          (by simp [ht, tokenKinds?_successors hx]))
  | @suppose t ts x rest ks hs ht hx hk =>
      rw [hs] at hp
      exact headed_setTodo hs
        (startsRedirection_successor hp.1 (ht ▸ isDecision_token hx rest)
          (by simp [ht, tokenKinds?_successors hx]))
  | @turn t ts v₁ next mayEnd hs hv hresolve =>
      intro u hu hstarts
      rw [setTodo_of_tasks (hv.tasks_eq.trans hs)] at hu ⊢
      obtain rfl := Option.some.inj hu
      rw [hs] at hp
      have hkind : kindAt v₁.kinds 0 = v₁.kind := kindAt_kinds (by rw [hv.finish_eq, hf])
      change v₁.kind ∈ signKinds
      rw [← hkind]
      exact mem_signKinds_of_turn hp.1 (mem_turns_of_resolve hp.1 hresolve) hstarts
  | giveUp hs hv hn =>
      refine headed_tail hp ?_
      rw [← hv.tasks_eq]
      rfl

end View

/-! ### The first steps of a redirection -/

/-- Places of a redirection at which it has no token yet, with the kind of the one that comes. -/
inductive Sprouts (k : Kind) : List Item → Prop
  | start (hk : k ∈ signKinds) : Sprouts k (body .redirection)
  | sign (hk : k ∈ signKinds) (rest : List Item) : Sprouts k (.token k :: rest)
  | output (hk : k = .greater) :
      Sprouts k (.optional .two [.token .greater] :: .token .greater :: target)

theorem Sprouts.mem_signKinds {k : Kind} {todo : List Item} (h : Sprouts k todo) :
    k ∈ signKinds := by
  cases h with
  | start hk => exact hk
  | sign hk rest => exact hk
  | output hk =>
      rw [hk]
      decide

namespace Machine

/-- The rule on top has been given tokens, the next one first. -/
def Fed (m m' : Machine) : Prop :=
  ∃ m₁ : Machine, m₁.stack = m.stack ∧ m₁.rest = m.rest ∧ m₁.finish = m.finish ∧
    m₁.result = m.result ∧ OnTop m₁.consume m'

section First

variable {m m' : Machine} {f : Frame} {fs : List Frame}

theorem Fed.onTop (h : Fed m m') (hs : m.stack ≠ []) : OnTop m m' := by
  obtain ⟨m₁, hstack, hrest, hfinish, hresult, hm⟩ := h
  have hsame : OnTop m m₁ := .of_stack hstack (hrest ▸ List.suffix_refl _) hfinish hresult
  exact (hsame.trans (.consume (hsame.stack_ne_nil hs))).trans hm

theorem Fed.stack_eq (h : Fed m m') (hs : m.stack = f :: fs) (ht : m.token.text ≠ []) :
    ∃ todo new, m'.stack = ⟨f.rule, f.level, todo, f.kids ++ new⟩ :: fs ∧
      (∀ x ∈ new, x.rule? = none) ∧ textAll new ≠ [] := by
  obtain ⟨m₁, hstack, hrest, hfinish, -, hm⟩ := h
  have htoken : m₁.token = m.token := by rw [token, token, hrest, hfinish]
  have hs₁ := hstack.trans hs
  obtain ⟨todo, new, hs', hnew⟩ := hm.stack (by rw [consume_of_stack hs₁])
  have hgrown : m₁.grown.rule? = none ∧ m₁.grown.text = m.token.text := by
    rw [← htoken]
    cases hr : m₁.recovering <;> simp [grown, hr, rule?, Tree.text]
  refine ⟨todo, m₁.grown :: new, by simpa using hs', ?_, ?_⟩
  · exact List.forall_mem_cons.mpr ⟨hgrown.1, hnew⟩
  · rw [textAll_cons, hgrown.2]
    exact List.append_ne_nil_of_left_ne_nil ht _

theorem check_of_first (h : m.kind ∈ firstAll m.top) (afterRound : Bool) (go : Machine → Machine) :
    m.check afterRound go = go m := by
  unfold check
  simp [h]

theorem kindAt_kinds_zero (hf : m.finish.kind = .finish) : kindAt m.kinds 0 = m.kind :=
  View.kindAt_kinds (v := m.view) hf

/-- If no rule below can go on with the next token, a rule that is given up takes it first. -/
theorem fed_giveUp (hk : m.kind ∉ m.resume) (hne : m.kind ≠ .finish)
    (hf : m.finish.kind = .finish) (hs : m.stack ≠ []) :
    ∃ m', Fed m m' ∧ m.giveUp = m'.leave := by
  rw [giveUp_eq m _ rfl]
  split
  · have hs' := stack_consume_ne_nil hs
    have hnote : OnTop m.consume
        { m.consume with givenUp := some (m.consume.count, m.view.sites ++ [m.site]) } :=
      .of_stack rfl (List.suffix_refl _) rfl rfl
    exact ⟨_, ⟨m, rfl, rfl, rfl, rfl, hnote.trans (.skipUntil _ _ hs')⟩, rfl⟩
  · have hskip : ∀ m', skipUntil m.resume m.rest m' =
        skipUntil m.resume m.rest.tail m'.consume := by
      intro m'
      cases hr : m.rest with
      | nil => exact absurd (by simp [kind, token, hr, hf]) hne
      | cons t ts =>
          have hkind : m.kind = t.kind := by simp [kind, token, hr]
          rw [hkind] at hk
          rw [skipUntil, if_neg (by simpa using hk)]
          rfl
    rw [hskip]
    refine ⟨_, ⟨{ m with givenUp := some (m.count, m.view.sites ++ [m.site]) }, rfl, rfl, rfl, rfl,
      .skipUntil _ _ ?_⟩, rfl⟩
    exact stack_consume_ne_nil hs

theorem fed_failNoWay (hk : m.kind ∉ m.resume) (hne : m.kind ≠ .finish)
    (hf : m.finish.kind = .finish) (hs : m.stack ≠ []) (offset : Nat) :
    ∃ m', Fed m m' ∧ m.failNoWay offset = m'.leave := by
  have hsame : ∀ (t : Token) (trouble : Trouble),
      ∃ m', Fed m m' ∧ (m.complainAt t trouble).giveUp = m'.leave := by
    intro t trouble
    unfold complainAt
    split
    · exact fed_giveUp hk hne hf hs
    · obtain ⟨m', hm', hleave⟩ := fed_giveUp (m := { m with
        recovering := true
        complaints := ⟨t.line, t.column, trouble⟩ :: m.complaints }) hk hne hf hs
      exact ⟨m', hm', hleave⟩
  exact hsame _ _

/-- A redirection that has no token yet is given one, or comes a place further. -/
theorem sprouts_step (hs : m.stack = f :: fs) (h : Sprouts m.kind f.todo)
    (hk : m.kind ∉ m.resume) (hf : m.finish.kind = .finish) :
    (∃ todo, Sprouts m.kind todo ∧ m.step = m.setTodo todo) ∨
      ∃ m', Fed m m' ∧ (m.step = m' ∨ m.step = m'.leave) := by
  have hmem := h.mem_signKinds
  have hne : m.kind ≠ .finish := by
    intro he
    rw [he] at hmem
    exact absurd hmem (by decide)
  have htop : m.top = f.todo := by simp [top, hs]
  have hzero := kindAt_kinds_zero hf
  generalize htodo : f.todo = todo at h
  cases h with
  | start hk =>
      have hfirst : m.kind ∈ firstAll m.top := by
        rw [htop, htodo]
        revert hk
        cases m.kind <;> decide
      left
      unfold step
      simp only [hs, htodo, body]
      rw [check_of_first hfirst, choose, firstForecast, hzero]
      rcases List.mem_cons.mp hk with hless | hk
      · rw [hless]
        exact ⟨_, .sign (by decide) target, rfl⟩
      · rw [List.mem_singleton.mp hk]
        exact ⟨_, .output rfl, rfl⟩
  | sign hk rest =>
      right
      have hstep : m.step = m.settle.consume.setTodo rest := by
        unfold step
        simp [hs, htodo, accept]
      exact ⟨_, ⟨m.settle, rfl, rfl, rfl, rfl, .setTodo _ rest⟩, Or.inl hstep⟩
  | output hgreater =>
      have hfirst : m.kind ∈ firstAll m.top := by
        rw [htop, htodo, hgreater]
        decide
      unfold step
      simp only [hs, htodo]
      rw [check_of_first hfirst]
      cases hway : optionalForecast .two f.level [.token .greater] (.token .greater :: target)
        m.kinds with
      | stuck offset =>
          right
          obtain ⟨m', hm', hleave⟩ := fed_failNoWay hk hne hf (by simp [hs]) offset
          exact ⟨m', hm', Or.inr hleave⟩
      | way n =>
          left
          have hsign : ∀ rest, Sprouts m.kind (.token .greater :: rest) := by
            rw [hgreater]
            exact .sign (by decide)
          have hn : n = 0 ∨ n = 1 := by
            have hlt := optionalForecast_lt hway
            omega
          rw [take]
          rcases hn with rfl | rfl
          · exact ⟨_, hsign (.token .greater :: target), rfl⟩
          · exact ⟨_, hsign target, rfl⟩

end First

/-! ### Below a redirection -/

theorem notMem_resume {m : Machine} {f : Frame} {fs : List Frame} (hs : m.stack = f :: fs)
    (hr : f.rule ∈ redirectionChain) (hp : Placed m.view.tasks) {k : Kind} (hk : k ∈ signKinds) :
    k ∉ m.resume := by
  have hbelow : Below f.rule f.level (fs.map Frame.task) := by
    rw [view, hs] at hp
    exact hp.2
  rw [resume, callers, hs]
  clear hs hp
  induction fs generalizing f with
  | nil => simp
  | cons g gs ih =>
      obtain ⟨hplace, hrest⟩ := hbelow
      obtain ⟨hg, hfirst⟩ := redirectionChain_below hr hplace
      have hgs := ih hg hrest
      intro hmem
      rcases List.mem_append.mp hmem with hmem | hmem
      · exact hfirst k hk hmem
      · exact hgs hmem

/-! ### What a step keeps -/

end Machine

/-- A rule that shows something if it is a redirection. -/
def Frame.Shows (f : Frame) : Prop := f.rule = .redirection → textAll f.kids ≠ []

theorem Frame.Shows.append {f : Frame} (h : f.Shows) (todo : List Item) (new : List Tree) :
    Frame.Shows ⟨f.rule, f.level, todo, f.kids ++ new⟩ := by
  intro hr
  rw [textAll_append]
  exact List.append_ne_nil_of_left_ne_nil (h hr) _

/-- Every redirection of the trees shows something, and so does every one that has called a rule. -/
structure Machine.Signed (m : Machine) : Prop where
  kids : ∀ f ∈ m.stack, ∀ x ∈ f.kids, x.Signed
  below : ∀ f ∈ m.stack.tail, f.Shows
  rest : ∀ t ∈ m.rest, t.text ≠ []
  finish : m.finish.text ≠ []
  result : ∀ t ∈ m.result, t.Signed

/-- A redirection on top shows something, or is about to. -/
def Machine.Grows (m : Machine) : Prop :=
  ∀ f ∈ m.stack.head?, f.Shows ∨ f.rule = .redirection ∧ Sprouts m.kind f.todo

namespace Machine.Signed

variable {m m' : Machine} {f : Frame} {fs : List Frame}

theorem grows_of_shows (hs : m.stack = f :: fs) (h : f.Shows) : Grows m := by
  intro g hg
  rw [hs] at hg
  obtain rfl := Option.some.inj hg
  exact Or.inl h

theorem token (h : Signed m) : m.token.text ≠ [] := by
  rw [Machine.token]
  cases hr : m.rest with
  | nil => exact h.finish
  | cons t ts => exact h.rest t (by simp [hr])

theorem onTop (h : Signed m) (hs : m.stack = f :: fs) (hm : OnTop m m') : Signed m' := by
  obtain ⟨todo, new, hs', hnew⟩ := hm.stack hs
  have hnodes : ∀ x ∈ f.kids ++ new, x.Signed :=
    List.forall_mem_append.mpr
      ⟨h.kids f (by simp [hs]), fun x hx => signed_of_rule? (hnew x hx)⟩
  refine ⟨?_, ?_, fun t ht => h.rest t (hm.rest.subset ht), hm.finish ▸ h.finish,
    hm.result ▸ h.result⟩
  · rw [hs']
    exact List.forall_mem_cons.mpr ⟨hnodes, fun g hg => h.kids g (by simp [hs, hg])⟩
  · have hbelow := h.below
    rw [hs] at hbelow
    rwa [hs']

theorem node (h : Signed m) (hs : m.stack = f :: fs) (hf : f.Shows) :
    Tree.Signed (.node f.rule f.kids) := .node (h.kids f (by simp [hs])) hf

theorem leave (h : Signed m) (hs : m.stack = f :: fs) (hf : f.Shows) :
    Signed m.leave ∧ Grows m.leave := by
  have hnode := h.node hs hf
  cases fs with
  | nil =>
      rw [leave_of_last hs]
      exact ⟨⟨by simp, by simp, h.rest, h.finish, by simpa using hnode⟩, by simp [Grows]⟩
  | cons g gs =>
      have hg : g.Shows := h.below g (by simp [hs])
      have hkids : ∀ x ∈ g.kids ++ [.node f.rule f.kids], x.Signed :=
        List.forall_mem_append.mpr ⟨h.kids g (by simp [hs]), by simpa using hnode⟩
      have hbelow : ∀ e ∈ gs, e.Shows := fun e he => h.below e (by simp [hs, he])
      rw [leave_of_stack hs]
      refine ⟨⟨?_, hbelow, h.rest, h.finish, h.result⟩, grows_of_shows rfl (hg.append g.todo _)⟩
      exact List.forall_mem_cons.mpr ⟨hkids, fun e he => h.kids e (by simp [hs, he])⟩

theorem fold (h : Signed m) (hs : m.stack = f :: fs) (hf : f.Shows) (rest : List Item) :
    Signed (m.fold.setTodo rest) ∧ Grows (m.fold.setTodo rest) := by
  rw [fold_of_stack hs]
  have hbelow := h.below
  rw [hs] at hbelow
  refine ⟨⟨?_, hbelow, h.rest, h.finish, h.result⟩, grows_of_shows rfl ?_⟩
  · exact List.forall_mem_cons.mpr
      ⟨by simpa using h.node hs hf, fun e he => h.kids e (by simp [hs, he])⟩
  · intro hr
    simpa using hf hr

theorem enter (h : Signed m) (hs : m.stack = f :: fs) (hf : f.Shows) {r : Rule}
    (hr : r = .redirection → m.kind ∈ signKinds) (level : Nat) :
    Signed (m.enter r level) ∧ Grows (m.enter r level) := by
  have hbelow := h.below
  rw [hs] at hbelow
  refine ⟨⟨?_, ?_, h.rest, h.finish, h.result⟩, ?_⟩
  · exact List.forall_mem_cons.mpr ⟨by simp, h.kids⟩
  · change ∀ g ∈ m.stack, g.Shows
    rw [hs]
    exact List.forall_mem_cons.mpr ⟨hf, hbelow⟩
  · intro g hg
    obtain rfl := Option.some.inj hg
    by_cases he : r = .redirection
    · subst he
      exact Or.inr ⟨rfl, .start (hr rfl)⟩
    · exact Or.inl fun hrule => absurd hrule he

theorem onTop_shows (h : Signed m) (hs : m.stack = f :: fs) (hf : f.Shows) (hm : OnTop m m') :
    Signed m' ∧ ∃ g, m'.stack = g :: fs ∧ g.Shows := by
  obtain ⟨todo, new, hs', -⟩ := hm.stack hs
  exact ⟨h.onTop hs hm, _, hs', hf.append todo new⟩

theorem tends (h : Signed m) (hs : m.stack = f :: fs) (hf : f.Shows) (hm : Tends m m') :
    Signed m' ∧ Grows m' := by
  cases hm with
  | stay hm =>
      obtain ⟨hsigned, g, hg, hshows⟩ := h.onTop_shows hs hf hm
      exact ⟨hsigned, grows_of_shows hg hshows⟩
  | leave hm =>
      obtain ⟨hsigned, g, hg, hshows⟩ := h.onTop_shows hs hf hm
      exact hsigned.leave hg hshows

/-- A redirection that shows nothing yet gets its sign before it is left. -/
theorem sprouts (h : Signed m) (hs : m.stack = f :: fs) (hr : f.rule = .redirection)
    (hsprouts : Sprouts m.kind f.todo) (hp : Placed m.view.tasks) (hf : m.finish.kind = .finish) :
    Signed m.step ∧ Grows m.step := by
  have hresume : m.kind ∉ m.resume :=
    notMem_resume hs (by rw [hr]; decide) hp hsprouts.mem_signKinds
  rcases sprouts_step hs hsprouts hresume hf with ⟨todo, htodo, hstep⟩ | ⟨m', hfed, hstep⟩
  · rw [hstep]
    refine ⟨h.onTop hs (.setTodo m todo), ?_⟩
    rw [setTodo_of_stack hs]
    intro g hg
    obtain rfl := Option.some.inj hg
    exact Or.inr ⟨hr, htodo⟩
  · have hsigned := h.onTop hs (hfed.onTop (by simp [hs]))
    obtain ⟨todo, new, hs', -, htext⟩ := hfed.stack_eq hs h.token
    have hshows : Frame.Shows ⟨f.rule, f.level, todo, f.kids ++ new⟩ := by
      intro _
      rw [textAll_append]
      exact List.append_ne_nil_of_right_ne_nil _ htext
    rcases hstep with hstep | hstep <;> rw [hstep]
    · exact ⟨hsigned, grows_of_shows hs' hshows⟩
    · exact hsigned.leave hs' hshows

theorem step (h : Signed m) (hg : Grows m) (hs : m.stack = f :: fs) (hv : m.view.Headed)
    (hp : Placed m.view.tasks) (hf : m.finish.kind = .finish) : Signed m.step ∧ Grows m.step := by
  rcases hg f (by simp [hs]) with hshows | ⟨hr, hsprouts⟩
  · rcases step_cases hs with htends | ⟨rest, hstep⟩ | ⟨r, level, rest, ht, hstep⟩
    · exact h.tends hs hshows htends
    · rw [hstep]
      exact h.fold hs hshows rest
    · rw [hstep]
      obtain ⟨hsigned, g, hg, hshows⟩ := h.onTop_shows hs hshows (.setTodo m rest)
      refine hsigned.enter hg hshows (fun hr => ?_) level
      have hkind : m.kind ∈ signKinds := by
        refine hv f.task (by simp [view, hs]) ?_
        simp [Frame.task, ht, startsRedirection, callee?, hr]
      rwa [setTodo_of_stack hs]
  · exact h.sprouts hs hr hsprouts hp hf

theorem run (h : Signed m) (hg : Grows m) (hv : m.view.Headed) (hp : Placed m.view.tasks)
    (hf : m.finish.kind = .finish) (n : Nat) : Signed (m.run n) := by
  induction n generalizing m with
  | zero => exact h
  | succ n ih =>
      unfold Machine.run
      cases hs : m.stack with
      | nil => simpa using h
      | cons f fs =>
          have hact := act_step hs
          obtain ⟨hsigned, hgrows⟩ := h.step hg hs hv hp hf
          refine ih hsigned hgrows (hact.headed hp hf) (hact.placed hp) ?_
          rwa [(Reaches.step hs).finish_eq]

end Machine.Signed

/-- Every redirection of a tree that is read shows something, whatever is wrong with the text. -/
theorem signed_read (text : Text) : (read .command text).tree.Signed := by
  have hm : (Machine.start .command text).Signed :=
    { kids := by simp [Machine.start]
      below := by simp [Machine.start]
      rest := fun t ht => ((Token.lexed_scan text).proper t ht).nonempty
      finish := by
        change "<EOF>".toList ≠ []
        decide
      result := by simp [Machine.start] }
  have hg : (Machine.start .command text).Grows :=
    Machine.Signed.grows_of_shows rfl (by simp [Frame.Shows])
  have hv : (Machine.start .command text).view.Headed :=
    View.headed_of_not (by simp [Machine.view, Machine.start, Frame.task, startsRedirection_body])
  have hread := (hm.run hg hv (placed_start _ _) rfl (bound (Token.scan text).length)).result
  rw [read]
  cases hres : ((Machine.start .command text).run (bound (Token.scan text).length)).result with
  | none => exact .node (by simp) (by simp)
  | some t => exact hread t hres

end Parse

end CommandShell
