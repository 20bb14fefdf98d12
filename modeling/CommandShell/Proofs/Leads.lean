import CommandShell.Proofs.Acts
import CommandShell.Proofs.Reading

/-! # From place to place without a complaint

When the kinds before the reader are known, what it does can be followed from one place of a rule
to another. Each item has its own law; the laws are put together for a whole rule, and a rule that
can be followed to its end is one step for the rule that calls it. -/

namespace CommandShell.Parse

open Grammar

/-- The reader stands at a place of a rule with the frames below it, has the kinds before it and
has not complained since the complaints given. -/
structure At (below : List Frame) (complaints : List Complaint) (t : Task) (ks : List Kind)
    (m : Machine) : Prop where
  stack : ∃ f, m.stack = f :: below ∧ f.task = t
  kinds : m.kinds = ks
  calm : m.recovering = false
  complaints : m.complaints = complaints
  finish : m.finish.kind = .finish

/-- From a place of the rule with the kinds before it the reader comes to another place with other
kinds before it, whatever is below. -/
def Leads (r : Rule) (level : Nat) (todo : List Item) (ks : List Kind) (todo' : List Item)
    (ks' : List Kind) : Prop :=
  ∀ below complaints m, At below complaints ⟨r, level, todo⟩ ks m →
    ∃ n, At below complaints ⟨r, level, todo'⟩ ks' (m.run n)

theorem Machine.run_of_nil {m : Machine} (h : m.stack = []) (n : Nat) : m.run n = m := by
  cases n with
  | zero => rfl
  | succ n => simp [run, h]

theorem Machine.run_succ {m : Machine} (h : m.stack ≠ []) (n : Nat) :
    m.run (n + 1) = m.step.run n := by
  simp [run, h]

theorem Machine.run_add (a b : Nat) (m : Machine) : m.run (a + b) = (m.run a).run b := by
  induction a generalizing m with
  | zero =>
      rw [Nat.zero_add]
      rfl
  | succ a ih =>
      by_cases hs : m.stack = []
      · rw [run_of_nil hs, run_of_nil hs, run_of_nil hs]
      · rw [Nat.succ_add, run_succ hs, run_succ hs, ih]

theorem At.run_one {below : List Frame} {complaints : List Complaint} {t : Task} {ks : List Kind}
    {m : Machine} (h : At below complaints t ks m) : m.run 1 = m.step := by
  obtain ⟨f, hs, _⟩ := h.stack
  simp [Machine.run, hs]

theorem At.kind_eq {below : List Frame} {complaints : List Complaint} {t : Task} {ks : List Kind}
    {m : Machine} (h : At below complaints t ks m) : m.kind = kindAt ks 0 := by
  rw [← h.kinds]
  cases hr : m.rest <;> simp [Machine.kind, Machine.kinds, Machine.token, kindAt, hr, h.finish]

namespace Leads

variable {r : Rule} {level : Nat} {todo todo' rest : List Item} {ks ks' : List Kind}

theorem refl : Leads r level todo ks todo ks := fun _ _ _ h => ⟨0, h⟩

theorem trans {mid : List Item} {ms : List Kind} (h : Leads r level todo ks mid ms)
    (h' : Leads r level mid ms todo' ks') : Leads r level todo ks todo' ks' := by
  intro below complaints m hm
  obtain ⟨a, ha⟩ := h below complaints m hm
  obtain ⟨b, hb⟩ := h' below complaints _ ha
  rw [← Machine.run_add] at hb
  exact ⟨a + b, hb⟩

theorem of_step (h : ∀ below complaints m, At below complaints ⟨r, level, todo⟩ ks m →
    At below complaints ⟨r, level, todo'⟩ ks' m.step) : Leads r level todo ks todo' ks' := by
  intro below complaints m hm
  refine ⟨1, ?_⟩
  rw [hm.run_one]
  exact h below complaints m hm

end Leads

section Laws

variable {r : Rule} {level : Nat} {todo rest : List Item} {ks : List Kind}

/-- A change of the place alone. -/
theorem At.setTodo {below : List Frame} {complaints : List Complaint} {m : Machine}
    (h : At below complaints ⟨r, level, todo⟩ ks m) (next : List Item) :
    At below complaints ⟨r, level, next⟩ ks (m.setTodo next) := by
  obtain ⟨f, hs, hf⟩ := h.stack
  rw [Machine.setTodo_of_stack hs]
  cases hf
  exact ⟨⟨_, rfl, rfl⟩, h.kinds, h.calm, h.complaints, h.finish⟩

/-- A token that fits is read. -/
theorem leads_token {x : Item} {ls : List Kind} {k : Kind} (hx : tokenKinds? x = some ls)
    (hk : k ∈ ls) : Leads r level (x :: rest) (k :: ks) rest ks := by
  refine Leads.of_step fun below complaints m hm => ?_
  obtain ⟨f, hs, hf⟩ := hm.stack
  have hkind : m.kind = k := hm.kind_eq
  have haccept : ∀ supposed, m.accept ls supposed rest = m.settle.consume.setTodo rest := by
    intro supposed
    simp [Machine.accept, hkind, hk]
  have hstep : m.step = m.settle.consume.setTodo rest := by
    have hf' : f.todo = x :: rest := congrArg Task.todo hf
    unfold Machine.step
    simp only [hs, hf']
    cases x with
    | token l =>
        obtain rfl := Option.some.inj hx
        exact haccept _
    | oneOf l =>
        obtain rfl := Option.some.inj hx
        exact haccept _
    | _ => cases hx
  rw [hstep, Machine.read_of_stack hs]
  have hdrop : (m.rest.drop 1).map Token.kind = ks := by
    have hkinds := hm.kinds
    rw [Machine.kinds] at hkinds
    rw [List.map_drop, hkinds]
    rfl
  have hrule : f.rule = r := congrArg Task.rule hf
  have hlevel : f.level = level := congrArg Task.level hf
  exact ⟨⟨_, rfl, by simp [Frame.task, hrule, hlevel]⟩, hdrop, rfl, hm.complaints, hm.finish⟩

/-- What was read becomes the first part. -/
theorem leads_fold {limit : Nat} : Leads r level (.fold limit :: rest) ks rest ks := by
  refine Leads.of_step fun below complaints m hm => ?_
  obtain ⟨f, hs, hf⟩ := hm.stack
  have hf' : f.todo = .fold limit :: rest := congrArg Task.todo hf
  have hstep : m.step = m.fold.setTodo rest := by
    unfold Machine.step
    simp only [hs, hf']
  rw [hstep, Machine.fold_of_stack hs]
  have hrule : f.rule = r := congrArg Task.rule hf
  have hlevel : f.level = level := congrArg Task.level hf
  exact ⟨⟨_, rfl, by simp [Frame.task, hrule, hlevel]⟩, hm.kinds, hm.calm, hm.complaints, hm.finish⟩

theorem At.enter {below : List Frame} {complaints : List Complaint} {m : Machine} {s : Rule}
    {l : Nat} (h : At below complaints ⟨r, level, .rule s l :: rest⟩ ks m) :
    ∃ f : Frame, f.task = ⟨r, level, rest⟩ ∧
      At (f :: below) complaints ⟨s, l, body s⟩ ks m.step := by
  obtain ⟨f, hs, hf⟩ := h.stack
  have hf' : f.todo = .rule s l :: rest := congrArg Task.todo hf
  have hrule : f.rule = r := congrArg Task.rule hf
  have hlevel : f.level = level := congrArg Task.level hf
  have hstep : m.step = (m.setTodo rest).enter s l := by
    unfold Machine.step
    simp only [hs, hf']
  refine ⟨{ f with todo := rest }, by simp [Frame.task, hrule, hlevel], ?_⟩
  rw [hstep, Machine.setTodo_of_stack hs]
  exact ⟨⟨_, rfl, rfl⟩, h.kinds, h.calm, h.complaints, h.finish⟩

/-- A rule that can be followed to its end is one step for its caller. -/
theorem leads_rule {s : Rule} {l : Nat} {ks' : List Kind} (h : Leads s l (body s) ks [] ks') :
    Leads r level (.rule s l :: rest) ks rest ks' := by
  intro below complaints m hm
  obtain ⟨f, hf, henter⟩ := hm.enter
  obtain ⟨n, hn⟩ := h _ _ _ henter
  obtain ⟨g, hgs, hg⟩ := hn.stack
  have hg' : g.todo = [] := congrArg Task.todo hg
  refine ⟨1 + n + 1, ?_⟩
  rw [Machine.run_add, Machine.run_add, hm.run_one, hn.run_one]
  have hstep : (m.step.run n).step = (m.step.run n).leave := by
    rw [Machine.step]
    simp only [hgs, hg']
  rw [hstep, Machine.leave_of_stack hgs]
  exact ⟨⟨_, rfl, hf⟩, hn.kinds, hn.calm, hn.complaints, hn.finish⟩

/-- The next token can come at the place, or nothing more need come. -/
def Viable (todo : List Item) (ks : List Kind) : Prop :=
  kindAt ks 0 ∈ firstAll todo ∨ canSkipAll todo = true

theorem At.check_eq {below : List Frame} {complaints : List Complaint} {m : Machine}
    (h : At below complaints ⟨r, level, todo⟩ ks m) (hv : Viable todo ks) (afterRound : Bool)
    (go : Machine → Machine) : m.check afterRound go = go m := by
  obtain ⟨f, hs, hf⟩ := h.stack
  have htop : m.top = todo := by
    simp only [Machine.top, hs]
    exact congrArg Task.todo hf
  unfold Machine.check
  rw [htop, h.kind_eq]
  rcases hv with hv | hv <;> simp [hv]

theorem mem_firstSome {alternatives : List (List Item)} {xs : List Item} {k : Kind}
    (hx : xs ∈ alternatives) (hk : k ∈ firstAll xs) : k ∈ firstSome alternatives := by
  induction alternatives with
  | nil => cases hx
  | cons ys alternatives ih =>
      rcases List.mem_cons.mp hx with rfl | hx
      · exact List.mem_append_left _ hk
      · exact List.mem_append_right _ (ih hx)

/-- The reader only turns to another place of the rule. -/
def Turns (r : Rule) (level : Nat) (todo : List Item) (ks : List Kind) (next : List Item) : Prop :=
  ∀ below complaints m, At below complaints ⟨r, level, todo⟩ ks m → m.step = m.setTodo next

theorem Turns.leads {next : List Item} (h : Turns r level todo ks next) :
    Leads r level todo ks next ks := by
  refine Leads.of_step fun below complaints m hm => ?_
  rw [h below complaints m hm]
  exact hm.setTodo next

/-- An alternative that is chosen whatever may follow. -/
theorem turns_choice {g : Guide} {alternatives : List (List Item)} {n : Nat} {xs : List Item}
    (hg : knows alternatives g = true)
    (hc : ∀ mayEnd, choose g mayEnd alternatives ks = .way n) (hn : alternatives[n]? = some xs) :
    Turns r level (.choice g alternatives :: rest) ks (xs ++ rest) := by
  have hv : Viable (.choice g alternatives :: rest) ks := by
    obtain ⟨ys, hys, hk⟩ := choose_starts hg (hc false)
    exact Or.inl (List.mem_append_left _ (mem_firstSome (List.mem_of_getElem? hys) hk))
  intro below complaints m hm
  obtain ⟨f, hs, hf⟩ := hm.stack
  have hf' : f.todo = .choice g alternatives :: rest := congrArg Task.todo hf
  unfold Machine.step
  simp only [hs, hf']
  rw [hm.check_eq hv, hm.kinds, hc, Machine.take]
  simp [hn]

theorem leads_choice {g : Guide} {alternatives : List (List Item)} {n : Nat} {xs : List Item}
    (hg : knows alternatives g = true)
    (hc : ∀ mayEnd, choose g mayEnd alternatives ks = .way n) (hn : alternatives[n]? = some xs) :
    Leads r level (.choice g alternatives :: rest) ks (xs ++ rest) ks :=
  (turns_choice hg hc hn).leads

theorem turns_optional {g : Guide} {inside : List Item} {n : Nat}
    (hv : Viable (.optional g inside :: rest) ks)
    (hn : optionalForecast g level inside rest ks = .way n) :
    Turns r level (.optional g inside :: rest) ks ([inside ++ rest, rest][n]?.getD []) := by
  intro below complaints m hm
  obtain ⟨f, hs, hf⟩ := hm.stack
  have hf' : f.todo = .optional g inside :: rest := congrArg Task.todo hf
  have hlevel : f.level = level := congrArg Task.level hf
  unfold Machine.step
  simp only [hs, hf', hlevel]
  rw [hm.check_eq hv, hm.kinds, hn, Machine.take]

/-- A loop, before or after its first round. -/
def IsLoop (x : Item) (g : Guide) (round : List Item) : Prop :=
  x = .loop g round ∨ x = .again g round

theorem turns_loop {x : Item} {g : Guide} {round : List Item} (hx : IsLoop x g round)
    (hv : Viable (x :: rest) ks) :
    Turns r level (x :: rest) ks
      (if enters g level round ks then round ++ .again g round :: rest else rest) := by
  intro below complaints m hm
  obtain ⟨f, hs, hf⟩ := hm.stack
  have hf' : f.todo = x :: rest := congrArg Task.todo hf
  have hlevel : f.level = level := congrArg Task.level hf
  unfold Machine.step
  simp only [hs, hf', hlevel]
  rcases hx with rfl | rfl
  · exact (hm.check_eq hv _ _).trans (by rw [hm.kinds])
  · exact (hm.check_eq hv _ _).trans (by rw [hm.kinds])

end Laws

@[simp] theorem kindAt_cons_zero (k : Kind) (ks : List Kind) : kindAt (k :: ks) 0 = k := rfl

@[simp] theorem kindAt_cons_succ (k : Kind) (ks : List Kind) (n : Nat) :
    kindAt (k :: ks) (n + 1) = kindAt ks n := by
  simp [kindAt]

section Loops

variable {r : Rule} {level : Nat} {x : Item} {g : Guide} {round rest : List Item} {ks : List Kind}

theorem IsLoop.first_eq (hx : IsLoop x g round) : first x = firstAll round := by
  rcases hx with rfl | rfl <;> rfl

theorem IsLoop.canSkip_eq (hx : IsLoop x g round) : canSkip x = true := by
  rcases hx with rfl | rfl <;> rfl

theorem IsLoop.viable_round (hx : IsLoop x g round) (h : kindAt ks 0 ∈ firstAll round) :
    Viable (x :: rest) ks := by
  left
  rw [firstAll, hx.first_eq]
  exact List.mem_append_left _ h

theorem IsLoop.viable (hx : IsLoop x g round) (h : Viable rest ks) : Viable (x :: rest) ks := by
  rcases h with h | h
  · left
    rw [firstAll, hx.canSkip_eq]
    exact List.mem_append_right _ h
  · right
    simp [canSkipAll, hx.canSkip_eq, h]

theorem turns_round (hx : IsLoop x g round) (he : enters g level round ks = true) :
    Turns r level (x :: rest) ks (round ++ .again g round :: rest) := by
  have h : Turns r level (x :: rest) ks _ :=
    turns_loop hx (hx.viable_round (mem_firstAll_of_enters he))
  rwa [if_pos he] at h

theorem turns_exit (hx : IsLoop x g round) (he : enters g level round ks = false)
    (hv : Viable rest ks) : Turns r level (x :: rest) ks rest := by
  have h : Turns r level (x :: rest) ks _ := turns_loop hx (hx.viable hv)
  rwa [if_neg (by simp [he])] at h

theorem enters_of_mem (ho : isOpen level round = true) (h : kindAt ks 0 ∈ firstAll round) :
    enters .one level round ks = true := by
  simp [enters, ho, h]

theorem enters_of_notMem (h : kindAt ks 0 ∉ firstAll round) : enters g level round ks = false := by
  simp [enters, h]

theorem firstAll_token {y : Item} {ls : List Kind} (hy : tokenKinds? y = some ls)
    (rest : List Item) : firstAll (y :: rest) = ls := by
  cases y with
  | token k =>
      obtain rfl := Option.some.inj hy
      rfl
  | oneOf ks =>
      obtain rfl := Option.some.inj hy
      simp [firstAll, first, canSkip]
  | _ => cases hy

theorem enters_two_iff {y : Item} {ls : List Kind} (hy : tokenKinds? y = some ls) :
    enters .two level (y :: rest) ks = true ↔ kindAt ks 0 ∈ ls ∧ kindAt ks 1 ∈ firstAll rest := by
  have hopen : isOpen level (y :: rest) = true := by cases y <;> first | rfl | cases hy
  simp [enters, hopen, firstAll_token hy]

end Loops

section Options

variable {r : Rule} {level : Nat} {inside rest : List Item} {ks : List Kind}

theorem turns_take (he : enters .one level inside ks = true) :
    Turns r level (.optional .one inside :: rest) ks (inside ++ rest) := by
  have hv : Viable (.optional .one inside :: rest) ks :=
    Or.inl (List.mem_append_left _ (mem_firstAll_of_enters he))
  exact turns_optional (n := 0) hv (by simp [optionalForecast, he])

theorem turns_pass (he : enters .one level inside ks = false) (hv : Viable rest ks) :
    Turns r level (.optional .one inside :: rest) ks rest := by
  have hv' : Viable (.optional .one inside :: rest) ks := by
    rcases hv with hv | hv
    · exact Or.inl (List.mem_append_right _ hv)
    · exact Or.inr (by simp [canSkipAll, canSkip, hv])
  exact turns_optional (n := 1) hv' (by simp [optionalForecast, he])

end Options

end CommandShell.Parse
