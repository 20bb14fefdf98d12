import CommandShell.Proofs.Leads

/-! # The trees that are built on the way

Between two places of a rule the reader takes tokens and adds trees to what it has of the rule.
Which trees these are depends on the tokens that it takes, and on what follows only as far as the
next token must not belong to them. -/

namespace CommandShell.Parse

open Grammar CommandShell.Tree

def kindsOf (ts : List Token) : List Kind := ts.map Token.kind

@[simp] theorem kindsOf_nil : kindsOf [] = [] := rfl

@[simp] theorem kindsOf_cons (t : Token) (ts : List Token) :
    kindsOf (t :: ts) = t.kind :: kindsOf ts := rfl

@[simp] theorem kindsOf_append (ts us : List Token) :
    kindsOf (ts ++ us) = kindsOf ts ++ kindsOf us := List.map_append

@[simp] theorem kindsOf_flatten (tss : List (List Token)) :
    kindsOf tss.flatten = (tss.map kindsOf).flatten := List.map_flatten

theorem kind_mem_kindsOf {t : Token} {ts : List Token} (h : t ∈ ts) : t.kind ∈ kindsOf ts :=
  List.mem_map_of_mem h

theorem kindsOf_eq_nil {ts : List Token} (h : kindsOf ts = []) : ts = [] := List.map_eq_nil_iff.mp h

theorem kindsOf_eq_cons {ts : List Token} {k : Kind} {q : List Kind} (h : kindsOf ts = k :: q) :
    ∃ t us, ts = t :: us ∧ t.kind = k ∧ kindsOf us = q := List.map_eq_cons_iff.mp h

theorem kindsOf_eq_singleton {ts : List Token} {k : Kind} (h : kindsOf ts = [k]) :
    ∃ t, ts = [t] ∧ t.kind = k := List.map_eq_singleton_iff.mp h

theorem kindsOf_eq_append {ts : List Token} {p q : List Kind} (h : kindsOf ts = p ++ q) :
    ∃ us vs, ts = us ++ vs ∧ kindsOf us = p ∧ kindsOf vs = q := List.map_eq_append_iff.mp h

/-- Tokens whose kinds fall apart fall apart in the same way. -/
theorem kindsOf_eq_flatten {ts : List Token} {qs : List (List Kind)} (h : kindsOf ts = qs.flatten) :
    ∃ tss : List (List Token), ts = tss.flatten ∧ tss.map kindsOf = qs := by
  induction qs generalizing ts with
  | nil => exact ⟨[], kindsOf_eq_nil h, rfl⟩
  | cons q qs ih =>
      obtain ⟨us, vs, rfl, hus, hvs⟩ := kindsOf_eq_append h
      obtain ⟨tss, rfl, rfl⟩ := ih hvs
      exact ⟨us :: tss, rfl, by rw [List.map_cons, hus]⟩

/-- The reader has the frame on top of the frames below it and the tokens before it, and has not
complained since the complaints given. -/
structure Stands (below : List Frame) (complaints : List Complaint) (f : Frame) (ts : List Token)
    (m : Machine) : Prop where
  stack : m.stack = f :: below
  rest : m.rest = ts
  calm : m.recovering = false
  complaints : m.complaints = complaints
  finish : m.finish.kind = .finish

theorem Stands.place {below : List Frame} {complaints : List Complaint} {f : Frame}
    {ts : List Token} {m : Machine} (h : Stands below complaints f ts m) :
    At below complaints f.task (kindsOf ts) m := by
  refine ⟨⟨f, h.stack, rfl⟩, ?_, h.calm, h.complaints, h.finish⟩
  rw [Machine.kinds, h.rest]
  rfl

theorem At.stands {below : List Frame} {complaints : List Complaint} {r : Rule} {level : Nat}
    {todo : List Item} {ks : List Kind} {m : Machine}
    (h : At below complaints ⟨r, level, todo⟩ ks m) :
    ∃ kids, kindsOf m.rest = ks ∧ Stands below complaints ⟨r, level, todo, kids⟩ m.rest m := by
  obtain ⟨⟨r', level', todo', kids⟩, hs, hf⟩ := h.stack
  cases hf
  exact ⟨kids, h.kinds, hs, rfl, h.calm, h.complaints, h.finish⟩

/-- From a place of a rule with some trees and tokens the reader comes to another place of it with
other trees and tokens, whatever is below. -/
def Goes (r : Rule) (level : Nat) (todo : List Item) (kids : List Tree) (ts : List Token)
    (todo' : List Item) (kids' : List Tree) (ts' : List Token) : Prop :=
  ∀ below complaints m, Stands below complaints ⟨r, level, todo, kids⟩ ts m →
    ∃ n, Stands below complaints ⟨r, level, todo', kids'⟩ ts' (m.run n)

/-- With `rest` behind them the tokens are taken and the trees are added. -/
def Builds (r : Rule) (level : Nat) (todo : List Item) (ts rest : List Token) (new : List Tree)
    (todo' : List Item) : Prop :=
  ∀ kids, Goes r level todo kids (ts ++ rest) todo' (kids ++ new) rest

section Laws

variable {r : Rule} {level : Nat} {todo todo' mid : List Item} {ts us rest : List Token}
  {kids kids' new more : List Tree}

theorem Goes.trans {mids : List Tree} {ms ts' : List Token}
    (h : Goes r level todo kids ts mid mids ms) (h' : Goes r level mid mids ms todo' kids' ts') :
    Goes r level todo kids ts todo' kids' ts' := by
  intro below complaints m hm
  obtain ⟨a, ha⟩ := h below complaints m hm
  obtain ⟨b, hb⟩ := h' below complaints _ ha
  rw [← Machine.run_add] at hb
  exact ⟨a + b, hb⟩

theorem Goes.of_step {ts' : List Token}
    (h : ∀ below complaints m, Stands below complaints ⟨r, level, todo, kids⟩ ts m →
      Stands below complaints ⟨r, level, todo', kids'⟩ ts' m.step) :
    Goes r level todo kids ts todo' kids' ts' := by
  intro below complaints m hm
  refine ⟨1, ?_⟩
  rw [hm.place.run_one]
  exact h below complaints m hm

theorem Builds.refl : Builds r level todo [] rest [] todo := by
  intro kids below complaints m hm
  rw [List.append_nil]
  exact ⟨0, hm⟩

theorem Builds.trans (h : Builds r level todo ts (us ++ rest) new mid)
    (h' : Builds r level mid us rest more todo') :
    Builds r level todo (ts ++ us) rest (new ++ more) todo' := by
  intro kids
  have hgo := (h kids).trans (h' (kids ++ new))
  rwa [← List.append_assoc, List.append_assoc kids] at hgo

theorem Turns.goes {next : List Item} (h : Turns r level todo (kindsOf ts) next)
    (kids : List Tree) : Goes r level todo kids ts next kids ts := by
  refine Goes.of_step fun below complaints m hm => ?_
  rw [h below complaints m hm.place, Machine.setTodo_of_stack hm.stack]
  exact ⟨rfl, hm.rest, hm.calm, hm.complaints, hm.finish⟩

/-- A turn before some tokens are taken. -/
theorem Turns.builds {next : List Item} (h : Turns r level todo (kindsOf (ts ++ rest)) next)
    (hb : Builds r level next ts rest new todo') : Builds r level todo ts rest new todo' :=
  fun kids => (h.goes kids).trans (hb kids)

theorem goes_token {x : Item} {ls : List Kind} {t : Token} (hx : tokenKinds? x = some ls)
    (ht : t.kind ∈ ls) (kids : List Tree) (rest : List Token) :
    Goes r level (x :: todo) kids (t :: rest) todo (kids ++ [.leaf t]) rest := by
  refine Goes.of_step fun below complaints m hm => ?_
  have htoken : m.token = t := by simp [Machine.token, hm.rest]
  have hkind : m.kind = t.kind := by rw [Machine.kind, htoken]
  have haccept : ∀ supposed, m.accept ls supposed todo = m.settle.consume.setTodo todo := by
    intro supposed
    simp [Machine.accept, hkind, ht]
  have hstep : m.step = m.settle.consume.setTodo todo := by
    unfold Machine.step
    simp only [hm.stack]
    cases x with
    | token l =>
        obtain rfl := Option.some.inj hx
        exact haccept _
    | oneOf l =>
        obtain rfl := Option.some.inj hx
        exact haccept _
    | _ => cases hx
  rw [hstep, Machine.read_of_stack hm.stack, htoken]
  exact ⟨rfl, by simp [hm.rest], rfl, hm.complaints, hm.finish⟩

/-- A token that fits becomes a leaf. -/
theorem builds_cons {x : Item} {ls : List Kind} {t : Token} (hx : tokenKinds? x = some ls)
    (ht : t.kind ∈ ls) (h : Builds r level todo ts rest new todo') :
    Builds r level (x :: todo) (t :: ts) rest (.leaf t :: new) todo' := by
  intro kids
  have hgo := (goes_token hx ht kids (ts ++ rest)).trans (h (kids ++ [.leaf t]))
  rwa [List.append_assoc] at hgo

theorem builds_token {x : Item} {ls : List Kind} {t : Token} (hx : tokenKinds? x = some ls)
    (ht : t.kind ∈ ls) : Builds r level (x :: todo) [t] rest [.leaf t] todo :=
  builds_cons hx ht .refl

theorem goes_fold {limit : Nat} :
    Goes r level (.fold limit :: todo) kids ts todo [.node r kids] ts := by
  refine Goes.of_step fun below complaints m hm => ?_
  have hstep : m.step = m.fold.setTodo todo := by
    unfold Machine.step
    simp only [hm.stack]
  rw [hstep, Machine.fold_of_stack hm.stack]
  exact ⟨rfl, hm.rest, hm.calm, hm.complaints, hm.finish⟩

theorem Stands.enter {below : List Frame} {complaints : List Complaint} {m : Machine} {s : Rule}
    {l : Nat} {kids : List Tree}
    (h : Stands below complaints ⟨r, level, .rule s l :: todo, kids⟩ ts m) :
    Stands (⟨r, level, todo, kids⟩ :: below) complaints ⟨s, l, body s, []⟩ ts m.step := by
  have hstep : m.step = (m.setTodo todo).enter s l := by
    unfold Machine.step
    simp only [h.stack]
  rw [hstep, Machine.setTodo_of_stack h.stack]
  exact ⟨rfl, h.rest, h.calm, h.complaints, h.finish⟩

/-- A rule that is read to its end becomes a node. -/
theorem goes_rule {s : Rule} {l : Nat} {new : List Tree} {ts' : List Token}
    (h : Goes s l (body s) [] ts [] new ts') (kids : List Tree) :
    Goes r level (.rule s l :: todo) kids ts todo (kids ++ [.node s new]) ts' := by
  intro below complaints m hm
  obtain ⟨n, hn⟩ := h _ _ _ hm.enter
  refine ⟨1 + n + 1, ?_⟩
  rw [Machine.run_add, Machine.run_add, hm.place.run_one, hn.place.run_one]
  have hstep : (m.step.run n).step = (m.step.run n).leave := by
    rw [Machine.step]
    simp only [hn.stack]
  rw [hstep, Machine.leave_of_stack hn.stack]
  exact ⟨rfl, hn.rest, hn.calm, hn.complaints, hn.finish⟩

theorem builds_rule {s : Rule} {l : Nat} (h : Builds s l (body s) ts rest new []) :
    Builds r level (.rule s l :: todo) ts rest [.node s new] todo :=
  fun kids => goes_rule (h []) kids

/-- What can be built wherever the kinds are given can be followed. -/
theorem leads_of_builds {q ks : List Kind}
    (h : ∀ ts rest, kindsOf ts = q → kindsOf rest = ks → ∃ new, Builds r level todo ts rest new todo') :
    Leads r level todo (q ++ ks) todo' ks := by
  intro below complaints m hm
  obtain ⟨kids, hkinds, hstands⟩ := hm.stands
  obtain ⟨ts, rest, hrest, hts, hks⟩ := kindsOf_eq_append hkinds
  obtain ⟨new, hbuilds⟩ := h ts rest hts hks
  rw [hrest] at hstands
  obtain ⟨n, hn⟩ := hbuilds kids below complaints m hstands
  refine ⟨n, ?_⟩
  have hplace := hn.place
  rwa [hks] at hplace

end Laws

/-! ### Loops over single tokens -/

section Tokens

variable {r : Rule} {level : Nat} {x y : Item} {ls : List Kind} {todo : List Item}
  {ts rest : List Token}

theorem isOpen_token (hy : tokenKinds? y = some ls) : isOpen level [y] = true := by
  cases y <;> first | rfl | cases hy

/-- A loop over one token at a time makes a leaf of each token that fits. -/
theorem builds_tokens (hx : IsLoop x .one [y]) (hy : tokenKinds? y = some ls)
    (ht : ∀ t ∈ ts, t.kind ∈ ls) (hk : kindAt (kindsOf rest) 0 ∉ ls)
    (hv : Viable todo (kindsOf rest)) :
    Builds r level (x :: todo) ts rest (ts.map .leaf) todo := by
  induction ts generalizing x with
  | nil =>
      have hexit : enters .one level [y] (kindsOf rest) = false :=
        enters_of_notMem (by rwa [firstAll_token hy])
      exact (turns_exit hx hexit hv).builds .refl
  | cons t ts ih =>
      have htk : t.kind ∈ ls := ht t (by simp)
      have hround : enters .one level [y] (kindsOf (t :: ts ++ rest)) = true := by
        refine enters_of_mem (isOpen_token hy) ?_
        rw [firstAll_token hy]
        exact htk
      refine (turns_round hx hround).builds ?_
      exact builds_cons hy htk (ih (Or.inr rfl) fun u hu => ht u (by simp [hu]))

/-- The same up to a token that is known. -/
theorem builds_tokens_to {t : Token} (hx : IsLoop x .one [y]) (hy : tokenKinds? y = some ls)
    (ht : ∀ t ∈ ts, t.kind ∈ ls) (hk : t.kind ∉ ls) (hv : t.kind ∈ firstAll todo) :
    Builds r level (x :: todo) ts (t :: rest) (ts.map .leaf) todo :=
  builds_tokens hx hy ht hk (Or.inl hv)

end Tokens

end CommandShell.Parse
