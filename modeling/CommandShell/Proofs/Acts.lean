import CommandShell.Proofs.Places

/-! # Acts of the reader

All that a step of the reader can do, with what it mends when something is wrong. Trees, events
and complaints are left out: what the reader does next does not depend on them. -/

namespace CommandShell.Parse

open Grammar

/-- A half-read rule without its tree. -/
structure Task where
  rule : Rule
  level : Nat
  todo : List Item

def Frame.task (f : Frame) : Task := ⟨f.rule, f.level, f.todo⟩

/-- Where the reader stands. -/
structure View where
  /-- The innermost rule first. -/
  tasks : List Task
  rest : List Token
  finish : Token
  count : Nat
  givenUp : Option (Nat × List Site)

namespace View

def kind (v : View) : Kind := (v.rest.head?.getD v.finish).kind

def kinds (v : View) : List Kind := v.rest.map Token.kind

/-- After `n` more tokens, or as many as there are. -/
def advance (n : Nat) (v : View) : View :=
  { v with rest := v.rest.drop n, count := v.count + min n v.rest.length }

def setTodo (todo : List Item) (v : View) : View :=
  match v.tasks with
  | [] => v
  | t :: ts => { v with tasks := { t with todo := todo } :: ts }

def site (v : View) : Site :=
  match v.tasks with
  | [] => ⟨.line, []⟩
  | t :: _ => ⟨t.rule, t.todo⟩

/-- The places at which rules were given up since a token last fitted. -/
def sites (v : View) : List Site := (v.givenUp.map Prod.snd).getD []

/-- Has a rule been given up at this place and token before? -/
def repeated (v : View) : Bool :=
  match v.givenUp with
  | some (n, sites) => n = v.count && sites.any (Site.same v.site)
  | none => false

/-- Give up the rule on top after `c` tokens and go on after `n` more. -/
def giveUp (n c : Nat) (v : View) : View :=
  { v.advance n with tasks := v.tasks.tail, givenUp := some (c, v.sites ++ [v.site]) }

theorem finish_setTodo (v : View) (todo : List Item) : (v.setTodo todo).finish = v.finish := by
  unfold setTodo
  split <;> rfl

theorem advance_zero (v : View) : v.advance 0 = v := by simp [advance]

theorem advance_advance (v : View) (a b : Nat) : (v.advance a).advance b = v.advance (a + b) := by
  simp only [advance, List.drop_drop, List.length_drop, View.mk.injEq, true_and, and_true]
  omega

end View

namespace Machine

def view (m : Machine) : View := ⟨m.stack.map Frame.task, m.rest, m.finish, m.count, m.givenUp⟩

theorem kind_view (m : Machine) : m.view.kind = m.kind := rfl

theorem kinds_view (m : Machine) : m.view.kinds = m.kinds := rfl

theorem site_view (m : Machine) : m.view.site = m.site := by
  unfold View.site site view
  cases m.stack <;> rfl

/-! ### What the operations do to the view -/

@[simp] theorem view_addKid (m : Machine) (t : Tree) : (m.addKid t).view = m.view := by
  unfold addKid
  split
  · rfl
  · next hs => simp [view, hs, Frame.task]

@[simp] theorem view_addKids (ts : List Tree) (m : Machine) :
    (ts.foldl addKid m).view = m.view := by
  induction ts generalizing m with
  | nil => rfl
  | cons t ts ih => rw [List.foldl_cons, ih, view_addKid]

@[simp] theorem view_complainAt (m : Machine) (t : Token) (trouble : Trouble) :
    (m.complainAt t trouble).view = m.view := by
  unfold complainAt
  split <;> rfl

@[simp] theorem view_complain (m : Machine) (trouble : Trouble) :
    (m.complain trouble).view = m.view :=
  view_complainAt m m.token trouble

@[simp] theorem view_settle (m : Machine) :
    m.settle.view = { m.view with givenUp := none } := rfl

@[simp] theorem view_setTodo (m : Machine) (todo : List Item) :
    (m.setTodo todo).view = m.view.setTodo todo := by
  cases hs : m.stack <;> simp [setTodo, View.setTodo, view, hs, Frame.task]

@[simp] theorem view_consume (m : Machine) : m.consume.view = m.view.advance 1 := by
  have hread : ∀ (b : Bool) (t : Tree), (({ m with
      rest := m.rest.drop 1
      count := if m.rest.isEmpty then m.count else m.count + 1
      recovering := b } : Machine).addKid t).view = m.view.advance 1 := by
    intro b t
    rw [view_addKid]
    cases hr : m.rest <;> simp [view, View.advance, hr]
  cases hc : m.recovering with
  | false =>
      simp only [consume, hc, Bool.false_eq_true, if_false]
      exact hread false (.leaf m.token)
  | true =>
      simp only [consume, hc, if_true]
      exact hread true (.skipped m.token)

@[simp] theorem view_leave (m : Machine) :
    m.leave.view = { m.view with tasks := m.view.tasks.tail } := by
  unfold leave
  split
  · next hs => simp [view, hs]
  · next f fs hs =>
      split
      · simp [view, hs]
      · rw [view_addKid]
        simp [view, hs]

theorem view_fold (m : Machine) : m.fold.view = m.view := by
  unfold fold
  split
  · rfl
  · next hs => simp [view, hs, Frame.task]

theorem exists_view_skipUntil (ks : List Kind) (ts : List Token) (m : Machine) :
    ∃ n, (skipUntil ks ts m).view = m.view.advance n := by
  induction ts generalizing m with
  | nil => exact ⟨0, (View.advance_zero _).symm⟩
  | cons t ts ih =>
      unfold skipUntil
      split
      · exact ⟨0, (View.advance_zero _).symm⟩
      · obtain ⟨n, hn⟩ := ih m.consume
        exact ⟨1 + n, by rw [hn, view_consume, View.advance_advance]⟩

theorem giveUp_eq (m m' : Machine) (h : m' = if m.view.repeated then m.consume else m) :
    m.giveUp =
      (skipUntil m'.resume m'.rest
        { m' with givenUp := some (m'.count, m.view.sites ++ [m.site]) }).leave := by
  subst h
  unfold View.repeated
  rw [site_view]
  rfl

/-- A rule that is given up at a place for the second time is left after one token at least. -/
theorem exists_view_giveUp (m : Machine) :
    ∃ n c, m.giveUp.view = m.view.giveUp n c ∧
      (n = 0 → m.view.repeated = false ∧ c = m.view.count) := by
  -- Up to the leaving, all that happens is that tokens are passed over and the place is noted.
  have hskip : ∀ (m' : Machine) (a : Nat), m'.view = m.view.advance a →
      ∃ n, (skipUntil m'.resume m'.rest
        { m' with givenUp := some (m'.count, m.view.sites ++ [m.site]) }).leave.view =
          m.view.giveUp (a + n) m'.count := by
    intro m' a hm
    obtain ⟨n, hn⟩ := exists_view_skipUntil m'.resume m'.rest
      { m' with givenUp := some (m'.count, m.view.sites ++ [m.site]) }
    refine ⟨n, ?_⟩
    have hview : ({ m' with givenUp := some (m'.count, m.view.sites ++ [m.site]) } : Machine).view =
        { m.view.advance a with givenUp := some (m'.count, m.view.sites ++ [m.view.site]) } := by
      rw [← hm, site_view]
      rfl
    rw [view_leave, hn, hview]
    have hadv := View.advance_advance m.view a n
    simp only [View.advance, View.giveUp, View.mk.injEq, true_and] at hadv ⊢
    exact ⟨hadv.1, hadv.2.1, trivial⟩
  cases hr : m.view.repeated with
  | false =>
      obtain ⟨n, hn⟩ := hskip m 0 (View.advance_zero _).symm
      refine ⟨0 + n, m.count, ?_, fun _ => ⟨rfl, rfl⟩⟩
      rw [← hn, giveUp_eq m m (by simp [hr])]
  | true =>
      obtain ⟨n, hn⟩ := hskip m.consume 1 (view_consume m)
      refine ⟨1 + n, m.consume.count, ?_, by omega⟩
      rw [← hn, giveUp_eq m m.consume (by simp [hr])]

end Machine

/-- The kinds of token that an item reads. -/
def tokenKinds? : Item → Option (List Kind)
  | .token k => some [k]
  | .oneOf ks => some ks
  | _ => none

namespace View

/-- Tokens are passed over before a decision, or one is dropped because the next one fits. -/
inductive Mended (v : View) : View → Prop
  | skip (n : Nat) : Mended v (v.advance n)
  | drop : Mended v { v.advance 1 with givenUp := none }

/-- What a step can do. -/
inductive Act (v : View) : View → Prop
  | leave {t : Task} {ts : List Task} (hs : v.tasks = t :: ts) (ht : t.todo = []) :
      Act v { v with tasks := ts }
  | fold {t : Task} {ts : List Task} {limit : Nat} {rest : List Item} (hs : v.tasks = t :: ts)
      (ht : t.todo = .fold limit :: rest) : Act v (v.setTodo rest)
  | enter {t : Task} {ts : List Task} {r : Rule} {level : Nat} {rest : List Item}
      (hs : v.tasks = t :: ts) (ht : t.todo = .rule r level :: rest) :
      Act v { v with tasks := ⟨r, level, body r⟩ :: { t with todo := rest } :: ts }
  /-- The next token fits, perhaps after one that is dropped. -/
  | read {t : Task} {ts : List Task} {x : Item} {rest : List Item} {ks : List Kind} (n : Nat)
      (hs : v.tasks = t :: ts) (ht : t.todo = x :: rest) (hx : tokenKinds? x = some ks)
      (hn : 0 < n) : Act v ({ v.advance n with givenUp := none }.setTodo rest)
  /-- A token is supposed. -/
  | suppose {t : Task} {ts : List Task} {x : Item} {rest : List Item} {ks : List Kind}
      (hs : v.tasks = t :: ts) (ht : t.todo = x :: rest) (hx : tokenKinds? x = some ks)
      (hk : v.kind ∉ ks) : Act v (v.setTodo rest)
  | turn {t : Task} {ts : List Task} {v' : View} {next : List Item} (mayEnd : Bool)
      (hs : v.tasks = t :: ts) (hv : Mended v v')
      (h : resolve t.level mayEnd v'.kinds t.todo = some next) : Act v (v'.setTodo next)
  | giveUp {v' : View} {n c : Nat} (hs : v.tasks ≠ []) (hv : Mended v v')
      (hn : n = 0 → v'.repeated = false ∧ c = v'.count) : Act v (v'.giveUp n c)

theorem Mended.refl (v : View) : Mended v v := by
  have h := Mended.skip (v := v) 0
  rwa [advance_zero] at h

theorem Mended.tasks_eq {v v' : View} (h : Mended v v') : v'.tasks = v.tasks := by
  cases h <;> rfl

theorem Mended.finish_eq {v v' : View} (h : Mended v v') : v'.finish = v.finish := by
  cases h <;> rfl

theorem Act.finish_eq {v v' : View} (h : Act v v') : v'.finish = v.finish := by
  cases h with
  | leave hs ht => rfl
  | fold hs ht => exact finish_setTodo _ _
  | enter hs ht => rfl
  | read n hs ht hx hn => exact finish_setTodo _ _
  | suppose hs ht hx hk => exact finish_setTodo _ _
  | turn mayEnd hs hv h => exact (finish_setTodo _ _).trans hv.finish_eq
  | giveUp hs hv hn => exact hv.finish_eq

end View

namespace Machine

open View

theorem act_giveUp {v : View} {m : Machine} (hs : v.tasks ≠ []) (hv : Mended v m.view) :
    Act v m.giveUp.view := by
  obtain ⟨n, c, hview, hn⟩ := exists_view_giveUp m
  rw [hview]
  exact Act.giveUp hs hv hn

theorem act_failMismatched {m : Machine} (hs : m.view.tasks ≠ []) :
    Act m.view m.failMismatched.view := by
  apply act_giveUp hs
  rw [view_complain]
  exact Mended.refl _

theorem act_failNoWay {v : View} {m : Machine} (hs : v.tasks ≠ []) (hv : Mended v m.view)
    (offset : Nat) : Act v (m.failNoWay offset).view := by
  apply act_giveUp hs
  rwa [view_complainAt]

theorem view_drop? {m m' : Machine} (h : m.drop? = some m') :
    m'.view = { m.view.advance 1 with givenUp := none } := by
  unfold drop? at h
  split at h
  · obtain rfl := Option.some.inj h
    rw [view_settle, view_consume, view_complain]
  · cases h

theorem act_accept {m : Machine} {t : Task} {ts : List Task} {x : Item} {rest : List Item}
    {ks : List Kind} (hs : m.view.tasks = t :: ts) (ht : t.todo = x :: rest)
    (hx : tokenKinds? x = some ks) (supposed : List Tree) :
    Act m.view (m.accept ks supposed rest).view := by
  unfold accept
  split
  · rw [view_setTodo, view_consume, view_settle]
    exact Act.read 1 hs ht hx Nat.one_pos
  · next hk =>
      split
      · next m' hm =>
          rw [view_setTodo, view_consume, view_drop? hm]
          have h := Act.read 2 hs ht hx Nat.two_pos
          rwa [← advance_advance m.view 1 1] at h
      · split
        · rw [view_setTodo, view_addKids, view_complain]
          exact Act.suppose hs ht hx (by simpa [kind_view] using hk)
        · exact act_failMismatched (by simp [hs])

/-- Before a decision the reader mends its view or gives up. -/
theorem act_check {m : Machine} {afterRound : Bool} {go : Machine → Machine}
    (hs : m.view.tasks ≠ [])
    (hgo : ∀ m' : Machine, Mended m.view m'.view → Act m.view (go m').view) :
    Act m.view (m.check afterRound go).view := by
  unfold check
  split
  · exact hgo m (Mended.refl _)
  · split
    · apply hgo
      obtain ⟨n, hn⟩ := exists_view_skipUntil
        ((m.complain (.extraneous m.token.text m.expected)).expected ++
          (m.complain (.extraneous m.token.text m.expected)).resume)
        (m.complain (.extraneous m.token.text m.expected)).rest
        (m.complain (.extraneous m.token.text m.expected))
      rw [hn, view_complain]
      exact Mended.skip n
    · split
      · next m' hm =>
          apply hgo
          rw [view_drop? hm]
          exact Mended.drop
      · exact act_failMismatched hs

theorem view_enter {m : Machine} {f : Frame} {fs : List Frame} (hs : m.stack = f :: fs)
    (rest : List Item) (r : Rule) (level : Nat) :
    ((m.setTodo rest).enter r level).view =
      { m.view with
        tasks := ⟨r, level, body r⟩ :: { f.task with todo := rest } :: fs.map Frame.task } := by
  simp [view, enter, setTodo, hs, Frame.task]

section Decisions

variable {m : Machine} {t : Task} {ts : List Task} {afterRound : Bool}

theorem act_take (ht : m.view.tasks = t :: ts) {ways : List (List Item)}
    {forecast : Machine → Forecast}
    (h : ∀ m' n, forecast m' = .way n →
      resolve t.level m'.mayEnd m'.view.kinds t.todo = some (ways[n]?.getD [])) :
    Act m.view (m.check afterRound fun m' => m'.take ways (forecast m')).view := by
  have hne : m.view.tasks ≠ [] := by simp [ht]
  refine act_check hne fun m' hm => ?_
  cases hc : forecast m' with
  | stuck offset => exact act_failNoWay hne hm offset
  | way n =>
      rw [take, view_setTodo]
      exact Act.turn m'.mayEnd ht hm (h m' n hc)

theorem act_round (ht : m.view.tasks = t :: ts) {next : Machine → List Item}
    (h : ∀ m', resolve t.level m'.mayEnd m'.view.kinds t.todo = some (next m')) :
    Act m.view (m.check afterRound fun m' => m'.setTodo (next m')).view := by
  refine act_check (by simp [ht]) fun m' hm => ?_
  rw [view_setTodo]
  exact Act.turn m'.mayEnd ht hm (h m')

end Decisions

theorem act_step {m : Machine} {f : Frame} {fs : List Frame} (hs : m.stack = f :: fs) :
    Act m.view m.step.view := by
  have ht : m.view.tasks = f.task :: fs.map Frame.task := by simp [view, hs]
  unfold step
  simp only [hs]
  cases hf : f.todo with
  | nil =>
      have h := Act.leave ht hf
      rwa [view_leave, show m.view.tasks.tail = fs.map Frame.task by simp [ht]]
  | cons x rest =>
      cases x with
      | token | oneOf => exact act_accept ht hf rfl _
      | rule r level =>
          rw [view_enter hs]
          exact Act.enter ht hf
      | fold limit =>
          rw [view_setTodo, view_fold]
          exact Act.fold ht hf
      | choice | optional =>
          refine act_take ht fun m' n hn => ?_
          simp [Frame.task, hf, resolve, kinds_view, hn]
      | loop | again =>
          refine act_round ht fun m' => ?_
          rw [Frame.task, hf, kinds_view]
          rfl

end Machine

/-! ### Every rule is at one of its places -/

/-- Rules that wait for one to be read at a level. -/
def Below (r : Rule) (level : Nat) : List Task → Prop
  | [] => level = 0
  | t :: ts => .rule r level :: t.todo ∈ places t.rule ∧ Below t.rule t.level ts

/-- The rule on top is at one of its places, and every other waits for the one above it. -/
def Placed : List Task → Prop
  | [] => True
  | t :: ts => t.todo ∈ places t.rule ∧ Below t.rule t.level ts

theorem placed_start (r : Rule) (text : Text) : Placed (Machine.start r text).view.tasks :=
  ⟨body_mem_places r, rfl⟩

theorem Below.placed {r : Rule} {level : Nat} {ts : List Task} (h : Below r level ts) :
    Placed ts := by
  cases ts with
  | nil => trivial
  | cons t ts => exact ⟨mem_places_of_successor h.1 (by simp [successors]), h.2⟩

theorem Placed.tail {ts : List Task} (h : Placed ts) : Placed ts.tail := by
  cases ts with
  | nil => trivial
  | cons t ts => exact h.2.placed

theorem Placed.setTodo {v : View} {t : Task} {ts : List Task} {next : List Item}
    (h : Placed v.tasks) (hs : v.tasks = t :: ts) (hn : next ∈ successors t.todo) :
    Placed (v.setTodo next).tasks := by
  rw [hs] at h
  simp only [View.setTodo, hs]
  exact ⟨mem_places_of_successor h.1 hn, h.2⟩

theorem tokenKinds?_successors {x : Item} {rest : List Item} {ks : List Kind}
    (h : tokenKinds? x = some ks) : successors (x :: rest) = [rest] := by
  cases x <;> first | rfl | cases h

theorem mem_successors_of_mem_turns {k : Kind} {todo next : List Item} (h : next ∈ turns k todo) :
    next ∈ successors todo := by
  have hif : ∀ {p : Prop} [Decidable p] {x : List Item},
      next ∈ (if p then [x] else []) → next = x := by
    intro p _ x hx
    split at hx
    · exact List.mem_singleton.mp hx
    · cases hx
  unfold turns at h
  split at h
  · obtain ⟨xs, hxs, rfl⟩ := List.mem_map.mp h
    exact List.mem_map_of_mem (List.mem_filter.mp hxs).1
  all_goals first
    | cases h
    | rcases List.mem_append.mp h with h | h <;> simp [successors, hif h]

/-- No step takes a rule out of its places. -/
theorem View.Act.placed {v v' : View} (h : View.Act v v') (hp : Placed v.tasks) :
    Placed v'.tasks := by
  cases h with
  | leave hs ht =>
      have h := hp.tail
      rwa [hs] at h
  | fold hs ht => exact hp.setTodo hs (by simp [ht, successors])
  | enter hs ht =>
      rw [hs] at hp
      exact ⟨body_mem_places _, ht ▸ hp.1, hp.2⟩
  | read n hs ht hx hn =>
      refine Placed.setTodo (v := { v.advance n with givenUp := none }) hp hs ?_
      simp [ht, tokenKinds?_successors hx]
  | suppose hs ht hx hk => exact hp.setTodo hs (by simp [ht, tokenKinds?_successors hx])
  | turn b hs hv h =>
      have htop := hp
      rw [hs] at htop
      have hn := mem_successors_of_mem_turns (mem_turns_of_resolve htop.1 h)
      rw [← hv.tasks_eq] at hp hs
      exact hp.setTodo hs hn
  | giveUp hs hv hn =>
      have h := hp.tail
      rwa [← hv.tasks_eq] at h

end CommandShell.Parse
