import CommandShell.Proofs.Quotations

/-! # Reading calls

Redirections and calls that are spelled as the grammar says are read to their end without a
complaint, and their trees are put together from the trees of their arguments. -/

namespace CommandShell.Parse

open Grammar Spelling CommandShell.Tree

/-- The tokens are read by the rule as the trees, whatever follows beyond them. -/
def Reads (r : Rule) (ts : List Token) (kids : List Tree) : Prop :=
  ∀ rest, Beyond rest → Builds r 0 (body r) ts rest kids []

section Redirections

variable {r : Rule} {level : Nat} {todo : List Item} {ts rest : List Token}

theorem kindAt_argument {q : List Kind} (h : Argument q) (ks : List Kind) :
    kindAt (q ++ ks) 0 ∈ starts .argument := by
  obtain ⟨hne, h⟩ := h
  obtain ⟨s, ss, rfl⟩ := List.exists_cons_of_ne_nil hne
  rw [List.flatten_cons, List.append_assoc]
  exact kindAt_stretch (h s (by simp)) _

/-- A token that may be left out is read if it is there. -/
theorem builds_maybe {y : Item} {ls : List Kind} (hy : tokenKinds? y = some ls)
    (ht : Maybe ls (kindsOf ts)) (hk : ts = [] → kindAt (kindsOf rest) 0 ∉ ls)
    (hv : Viable todo (kindsOf rest)) :
    Builds r level (.optional .one [y] :: todo) ts rest (ts.map .leaf) todo := by
  rcases ht with hnil | ⟨k, hl, hone⟩
  · obtain rfl := kindsOf_eq_nil hnil
    have hpass : enters .one level [y] (kindsOf rest) = false := by
      apply enters_of_notMem
      rw [firstAll_token hy]
      exact hk rfl
    exact (turns_pass hpass hv).builds .refl
  · obtain ⟨t, rfl, rfl⟩ := kindsOf_eq_singleton hone
    have htake : enters .one level [y] (kindsOf ([t] ++ rest)) = true := by
      refine enters_of_mem (isOpen_token hy) ?_
      rw [firstAll_token hy]
      exact hl
    exact (turns_take htake).builds (builds_token hy hl)

/-- What follows the sign of a redirection. -/
def target : List Item := [.optional .one [.token .blank], .rule .argument 0]

def redirections : List (List Item) :=
  [.token .less :: target, .optional .two [.token .greater] :: .token .greater :: target]

theorem kindAt_target {g a : List Kind} (hg : Maybe [.blank] g) (ha : Argument a) (ks : List Kind) :
    kindAt (g ++ (a ++ ks)) 0 ∈ firstAll target := by
  rcases hg with rfl | ⟨k, hk, rfl⟩
  · exact List.mem_append_right _ (List.mem_append_left _ (kindAt_argument ha ks))
  · exact List.mem_append_left _ hk

theorem builds_target {g a : List Token} {kids : List Tree} (hg : Maybe [.blank] (kindsOf g))
    (ha : Argument (kindsOf a)) (h : Reads .argument a kids) (hrest : Beyond rest) :
    Builds .redirection level target (g ++ a) rest (g.map .leaf ++ [.node .argument kids]) [] := by
  have hfirst := kindAt_argument ha (kindsOf rest)
  rw [← kindsOf_append] at hfirst
  refine (builds_maybe rfl hg ?_ (Or.inl ?_)).trans (builds_rule (h rest hrest))
  · intro _ hblank
    rw [List.mem_singleton.mp hblank] at hfirst
    exact absurd hfirst (by decide)
  · exact List.mem_append_left _ hfirst

theorem builds_input {s : Token} {g a : List Token} {kids : List Tree} (hs : s.kind = .less)
    (hg : Maybe [.blank] (kindsOf g)) (ha : Argument (kindsOf a)) (h : Reads .argument a kids) :
    Reads .redirection (s :: (g ++ a)) (.leaf s :: (g.map .leaf ++ [.node .argument kids])) := by
  intro rest hrest
  have hc : ∀ mayEnd, choose .one mayEnd redirections (kindsOf (s :: (g ++ a) ++ rest)) =
      .way 0 := by
    intro mayEnd
    rw [List.cons_append, kindsOf_cons, hs]
    rfl
  refine (turns_choice rfl hc rfl).builds ?_
  exact builds_cons rfl (by simp [hs]) (builds_target hg ha h hrest)

theorem builds_output {s : Token} {m g a : List Token} {kids : List Tree} (hs : s.kind = .greater)
    (hm : Maybe [.greater] (kindsOf m)) (hg : Maybe [.blank] (kindsOf g))
    (ha : Argument (kindsOf a)) (h : Reads .argument a kids) :
    Reads .redirection (s :: (m ++ (g ++ a)))
      (.leaf s :: (m.map .leaf ++ (g.map .leaf ++ [.node .argument kids]))) := by
  intro rest hrest
  have hc : ∀ mayEnd, choose .one mayEnd redirections
      (kindsOf (s :: (m ++ (g ++ a)) ++ rest)) = .way 1 := by
    intro mayEnd
    rw [List.cons_append, kindsOf_cons, hs]
    rfl
  have hv : Viable (.optional .two [.token .greater] :: .token .greater :: target)
      (kindsOf (s :: (m ++ (g ++ a)) ++ rest)) := by
    left
    rw [List.cons_append, kindsOf_cons, hs]
    exact List.mem_cons_self
  refine (turns_choice rfl hc rfl).builds ?_
  rcases hm with hnil | ⟨k, hl, hone⟩
  · -- One sign: the next token shows that no second one follows.
    obtain rfl := kindsOf_eq_nil hnil
    have hf : optionalForecast .two 0 [.token .greater] (.token .greater :: target)
        (kindsOf (s :: ([] ++ (g ++ a)) ++ rest)) = .way 1 := by
      have hfirst := kindAt_target hg ha (kindsOf rest)
      have hne : kindAt (kindsOf g ++ (kindsOf a ++ kindsOf rest)) 0 ≠ .greater := by
        intro h
        rw [h] at hfirst
        exact absurd hfirst (by decide)
      rw [optionalForecast, firstAll_token rfl, firstAll_token rfl]
      simp [hs, hne, hfirst]
    refine (turns_optional hv hf).builds ?_
    exact builds_cons rfl (by simp [hs]) (builds_target hg ha h hrest)
  · obtain ⟨s', rfl, rfl⟩ := kindsOf_eq_singleton hone
    have hs' : s'.kind = .greater := List.mem_singleton.mp hl
    have hf : optionalForecast .two 0 [.token .greater] (.token .greater :: target)
        (kindsOf (s :: ([s'] ++ (g ++ a)) ++ rest)) = .way 0 := by
      simp only [List.cons_append, kindsOf_cons, List.nil_append, hs, hs']
      rfl
    refine (turns_optional hv hf).builds (builds_cons rfl (by simp [hs]) ?_)
    exact builds_cons rfl (by simp [hs']) (builds_target hg ha h hrest)

theorem exists_reads_redirection (h : Redirection (kindsOf ts)) :
    ∃ new, Reads .redirection ts new := by
  generalize hq : kindsOf ts = q at h
  cases h with
  | @input g a hg ha =>
      obtain ⟨s, us, rfl, hs, hus⟩ := kindsOf_eq_cons hq
      obtain ⟨g, a, rfl, rfl, rfl⟩ := kindsOf_eq_append hus
      obtain ⟨kids, hkids⟩ := builds_argument ha
      exact ⟨_, builds_input hs hg ha hkids⟩
  | @output m g a hm hg ha =>
      obtain ⟨s, us, rfl, hs, hus⟩ := kindsOf_eq_cons hq
      obtain ⟨m, vs, rfl, rfl, hvs⟩ := kindsOf_eq_append hus
      obtain ⟨g, a, rfl, rfl, rfl⟩ := kindsOf_eq_append hvs
      obtain ⟨kids, hkids⟩ := builds_argument ha
      exact ⟨_, builds_output hs hm hg ha hkids⟩

end Redirections

/-! ### Calls -/

section Calls

variable {level : Nat} {todo : List Item} {ts rest : List Token}

theorem kindAt_redirection {q : List Kind} (h : Redirection q) (ks : List Kind) :
    kindAt (q ++ ks) 0 ∈ starts .redirection := by
  cases h with
  | input => exact (by decide : Kind.less ∈ starts .redirection)
  | output => exact (by decide : Kind.greater ∈ starts .redirection)

theorem gap_notMem_starts {k : Kind} (hk : k ∈ gapKinds) : k ∉ starts .atom := by
  revert hk
  cases k <;> decide

theorem gap_notMem_argument {k : Kind} (hk : k ∈ gapKinds) : k ∉ starts .argument := by
  revert hk
  cases k <;> decide

theorem kindAt_atom {q : List Kind} (h : Atom q) (ks : List Kind) :
    kindAt (q ++ ks) 0 ∈ starts .atom := by
  cases h with
  | redirection h =>
      have hfirst := kindAt_redirection h ks
      revert hfirst
      cases kindAt (q ++ ks) 0 <;> decide
  | argument h =>
      have hfirst := kindAt_argument h ks
      revert hfirst
      cases kindAt (q ++ ks) 0 <;> decide

def atoms : List (List Item) := [[.rule .redirection 0], [.rule .argument 0]]

theorem reads_atom_redirection {kids : List Tree} (h : Redirection (kindsOf ts))
    (hr : Reads .redirection ts kids) : Reads .atom ts [.node .redirection kids] := by
  intro rest hrest
  have hc : ∀ mayEnd, choose .one mayEnd atoms (kindsOf (ts ++ rest)) = .way 0 := by
    intro mayEnd
    have hfirst := kindAt_redirection h (kindsOf rest)
    rw [kindsOf_append]
    simp only [choose, firstForecast]
    revert hfirst
    cases kindAt (kindsOf ts ++ kindsOf rest) 0 <;> decide
  exact (turns_choice rfl hc rfl).builds (builds_rule (hr rest hrest))

theorem reads_atom_argument {kids : List Tree} (h : Argument (kindsOf ts))
    (hr : Reads .argument ts kids) : Reads .atom ts [.node .argument kids] := by
  intro rest hrest
  have hc : ∀ mayEnd, choose .one mayEnd atoms (kindsOf (ts ++ rest)) = .way 1 := by
    intro mayEnd
    have hfirst := kindAt_argument h (kindsOf rest)
    rw [kindsOf_append]
    simp only [choose, firstForecast]
    revert hfirst
    cases kindAt (kindsOf ts ++ kindsOf rest) 0 <;> decide
  exact (turns_choice rfl hc rfl).builds (builds_rule (hr rest hrest))

theorem exists_reads_atom (h : Atom (kindsOf ts)) : ∃ new, Reads .atom ts new := by
  cases h with
  | redirection h =>
      obtain ⟨kids, hkids⟩ := exists_reads_redirection h
      exact ⟨_, reads_atom_redirection h hkids⟩
  | argument h =>
      obtain ⟨kids, hkids⟩ := builds_argument h
      exact ⟨_, reads_atom_argument h hkids⟩

/-- Tokens and the trees that they are read as. -/
abbrev Span := List Token × List Tree

def tokensOf (ps : List Span) : List Token := ps.flatMap Prod.fst

def treesOf (ps : List Span) : List Tree := ps.flatMap Prod.snd

/-- A redirection before the first word, with the gap behind it. -/
inductive HeadSpan : Span → Prop
  | head {ts : List Token} {g : Token} {kids : List Tree} (h : Redirection (kindsOf ts))
      (hr : Reads .redirection ts kids) (hg : g.kind ∈ gapKinds) :
      HeadSpan (ts ++ [g], [.node .redirection kids, .leaf g])

/-- A redirection or word after the first, with the gap before it. -/
inductive TailSpan : Span → Prop
  | tail {g : Token} {ts : List Token} {kids : List Tree} (hg : g.kind ∈ gapKinds)
      (h : Atom (kindsOf ts)) (hr : Reads .atom ts kids) :
      TailSpan (g :: ts, [.leaf g, .node .atom kids])

theorem exists_headSpan (h : Head (kindsOf ts)) : ∃ new, HeadSpan (ts, new) := by
  generalize hq : kindsOf ts = q at h
  obtain ⟨hr, hg⟩ := h
  obtain ⟨us, gs, rfl, rfl, hgs⟩ := kindsOf_eq_append hq
  obtain ⟨g, rfl, rfl⟩ := kindsOf_eq_singleton hgs
  obtain ⟨kids, hkids⟩ := exists_reads_redirection hr
  exact ⟨_, .head hr hkids hg⟩

theorem exists_tailSpan (h : Tail (kindsOf ts)) : ∃ new, TailSpan (ts, new) := by
  generalize hq : kindsOf ts = q at h
  obtain ⟨hg, ha⟩ := h
  obtain ⟨g, us, rfl, rfl, rfl⟩ := kindsOf_eq_cons hq
  obtain ⟨kids, hkids⟩ := exists_reads_atom ha
  exact ⟨_, .tail hg ha hkids⟩

theorem exists_spans {p : Span → Prop} {q : List Kind → Prop}
    (h : ∀ ts, q (kindsOf ts) → ∃ new, p (ts, new)) {qs : List (List Kind)} (hqs : ∀ x ∈ qs, q x)
    (hts : kindsOf ts = qs.flatten) : ∃ ps : List Span, tokensOf ps = ts ∧ ∀ x ∈ ps, p x := by
  induction qs generalizing ts with
  | nil => exact ⟨[], (kindsOf_eq_nil hts).symm, by simp⟩
  | cons x qs ih =>
      obtain ⟨us, vs, rfl, rfl, hvs⟩ := kindsOf_eq_append hts
      obtain ⟨new, hnew⟩ := h us (hqs _ (by simp))
      obtain ⟨ps, rfl, hps⟩ := ih (fun y hy => hqs y (by simp [hy])) hvs
      refine ⟨(us, new) :: ps, rfl, ?_⟩
      intro y hy
      rcases List.mem_cons.mp hy with rfl | hy
      · exact hnew
      · exact hps y hy

theorem kindAt_heads {hs : List Span} (h : ∀ x ∈ hs, HeadSpan x) {q : List Kind}
    (ha : Argument q) (ks : List Kind) :
    kindAt (kindsOf (tokensOf hs) ++ (q ++ ks)) 0 ∈ starts .atom := by
  cases hs with
  | nil => exact kindAt_atom (.argument ha) ks
  | cons x hs =>
      obtain ⟨hr, -, -⟩ := h x (by simp)
      rw [tokensOf, List.flatMap_cons, kindsOf_append, kindsOf_append, List.append_assoc,
        List.append_assoc]
      exact kindAt_atom (.redirection hr) _

theorem builds_heads {x : Item} {hs : List Span} (hx : IsLoop x .one [.rule .redirection 0, gap])
    (h : ∀ y ∈ hs, HeadSpan y) (hk : kindAt (kindsOf rest) 0 ∉ starts .redirection)
    (hv : Viable todo (kindsOf rest)) :
    Builds .call level (x :: todo) (tokensOf hs) rest (treesOf hs) todo := by
  induction hs generalizing x with
  | nil => exact (turns_exit hx (enters_of_notMem hk) hv).builds .refl
  | cons y hs ih =>
      obtain @⟨ts, g, kids, hr, hreads, hg⟩ := h y (by simp)
      have hround : enters .one level [.rule .redirection 0, gap]
          (kindsOf (tokensOf ((ts ++ [g], [.node .redirection kids, .leaf g]) :: hs) ++ rest)) =
            true := by
        refine enters_of_mem rfl (List.mem_append_left _ ?_)
        rw [tokensOf, List.flatMap_cons, kindsOf_append, kindsOf_append, kindsOf_append,
          List.append_assoc, List.append_assoc]
        exact kindAt_redirection hr _
      refine (turns_round hx hround).builds ?_
      have hnext : Beyond ([g] ++ tokensOf hs ++ rest) := gap_notMem_argument hg
      have hrest := builds_cons (x := gap) rfl hg
        (ih (Or.inr rfl) fun z hz => h z (by simp [hz]))
      have hgo := (builds_rule (hreads _ hnext)).trans hrest
      simpa [tokensOf, treesOf] using hgo

theorem beyond_tails {ts : List Span} (h : ∀ x ∈ ts, TailSpan x) (hrest : Beyond rest) :
    Beyond (tokensOf ts ++ rest) := by
  cases ts with
  | nil => exact hrest
  | cons x ts =>
      obtain ⟨hg, -, -⟩ := h x (by simp)
      exact gap_notMem_argument hg

theorem builds_tails {x : Item} {ts : List Span} (hx : IsLoop x .two [gap, .rule .atom 0])
    (h : ∀ y ∈ ts, TailSpan y)
    (he : enters .two level [gap, .rule .atom 0] (kindsOf rest) = false) (hrest : Beyond rest)
    (hv : Viable todo (kindsOf rest)) :
    Builds .call level (x :: todo) (tokensOf ts) rest (treesOf ts) todo := by
  induction ts generalizing x with
  | nil => exact (turns_exit hx he hv).builds .refl
  | cons y ts ih =>
      have hts : ∀ z ∈ ts, TailSpan z := fun z hz => h z (by simp [hz])
      obtain @⟨g, us, kids, hg, ha, hreads⟩ := h y (by simp)
      have hround : enters .two level [gap, .rule .atom 0]
          (kindsOf (tokensOf ((g :: us, [.leaf g, .node .atom kids]) :: ts) ++ rest)) = true := by
        have hfirst := kindAt_atom ha (kindsOf (tokensOf ts ++ rest))
        rw [enters_two_iff rfl, tokensOf, List.flatMap_cons, List.append_assoc, kindsOf_append,
          kindsOf_cons, List.cons_append, kindAt_cons_succ]
        exact ⟨hg, List.mem_append_left _ hfirst⟩
      refine (turns_round hx hround).builds ?_
      have hgo := builds_cons (x := gap) rfl hg
        ((builds_rule (hreads _ (beyond_tails hts hrest))).trans (ih (Or.inr rfl) hts))
      simpa [tokensOf, treesOf] using hgo

/-- A call, read part by part. -/
inductive CallSpan : Span → Prop
  | call {lead a trail : List Token} {heads tails : List Span} {kids : List Tree}
      (hl : Maybe gapKinds (kindsOf lead)) (hh : ∀ x ∈ heads, HeadSpan x)
      (ha : Argument (kindsOf a)) (hr : Reads .argument a kids) (ht : ∀ x ∈ tails, TailSpan x)
      (hg : Maybe gapKinds (kindsOf trail)) :
      CallSpan (lead ++ (tokensOf heads ++ (a ++ (tokensOf tails ++ trail))),
        lead.map .leaf ++ (treesOf heads ++
          (.node .argument kids :: (treesOf tails ++ trail.map .leaf))))

theorem kindsOf_tokensOf (xs : List Span) :
    kindsOf (tokensOf xs) = (xs.map fun x => kindsOf x.1).flatten := by
  rw [tokensOf, List.flatMap_def, kindsOf_flatten, List.map_map]
  rfl

theorem HeadSpan.spelled {x : Span} (h : HeadSpan x) : Head (kindsOf x.1) := by
  obtain ⟨hr, -, hg⟩ := h
  rw [kindsOf_append]
  exact .head hr hg

theorem TailSpan.spelled {x : Span} (h : TailSpan x) : Tail (kindsOf x.1) := by
  obtain ⟨hg, ha, -⟩ := h
  exact .tail hg ha

theorem heads_spelled {hs : List Span} (h : ∀ x ∈ hs, HeadSpan x) :
    ∀ q ∈ hs.map fun x => kindsOf x.1, Head q :=
  List.forall_mem_map.mpr fun x hx => (h x hx).spelled

theorem tails_spelled {ts : List Span} (h : ∀ x ∈ ts, TailSpan x) :
    ∀ q ∈ ts.map fun x => kindsOf x.1, Tail q :=
  List.forall_mem_map.mpr fun x hx => (h x hx).spelled

theorem CallSpan.spelled {x : Span} (h : CallSpan x) : Call (kindsOf x.1) := by
  obtain ⟨hl, hh, ha, -, ht, hg⟩ := h
  simp only [kindsOf_append, kindsOf_tokensOf]
  exact .words hl (heads_spelled hh) ha (tails_spelled ht) hg

theorem exists_callSpan (h : Call (kindsOf ts)) : ∃ new, CallSpan (ts, new) := by
  generalize hq : kindsOf ts = q at h
  obtain ⟨hl, hh, ha, ht, hg⟩ := h
  obtain ⟨lead, afterLead, rfl, rfl, hlead⟩ := kindsOf_eq_append hq
  obtain ⟨hs, afterHeads, rfl, hhs, hafter⟩ := kindsOf_eq_append hlead
  obtain ⟨a, afterFirst, rfl, rfl, hfirst⟩ := kindsOf_eq_append hafter
  obtain ⟨ts, trail, rfl, hts, rfl⟩ := kindsOf_eq_append hfirst
  obtain ⟨heads, rfl, hheads⟩ := exists_spans (fun _ => exists_headSpan) hh hhs
  obtain ⟨tails, rfl, htails⟩ := exists_spans (fun _ => exists_tailSpan) ht hts
  obtain ⟨kids, hkids⟩ := builds_argument ha
  exact ⟨_, .call hl hheads ha hkids htails hg⟩

theorem kindAt_of_word_stops {ks : List Kind}
    (h : ∀ k ∈ ks.head?, Outlook.next (.word .main) k = none) :
    kindAt ks 0 ∉ starts .argument ∧ kindAt ks 0 ∉ gapKinds := by
  cases ks with
  | nil => decide
  | cons k ks =>
      have hk := h k (by simp)
      rw [kindAt_cons_zero]
      revert hk
      cases k <;> decide

theorem kindAt_of_gap_stops {ks : List Kind} (h : ∀ k ∈ ks.head?, Outlook.next .gap k = none) :
    kindAt ks 0 ∉ starts .atom := by
  cases ks with
  | nil => decide
  | cons k ks =>
      have hk := h k (by simp)
      rw [kindAt_cons_zero]
      revert hk
      cases k <;> decide

/-- What comes after the last word of a call is not a part of it, and no word comes after the last
gap. -/
theorem beyond_of_stops (level : Nat) {lead a trail : List Token} {heads tails : List Span}
    (hl : Maybe gapKinds (kindsOf lead)) (hh : ∀ x ∈ heads, HeadSpan x)
    (ha : Argument (kindsOf a)) (ht : ∀ x ∈ tails, TailSpan x)
    (hg : Maybe gapKinds (kindsOf trail))
    (hs : Stops (kindsOf (lead ++ (tokensOf heads ++ (a ++ (tokensOf tails ++ trail)))))
      (kindsOf rest)) :
    Beyond (trail ++ rest) ∧
      enters .two level [gap, .rule .atom 0] (kindsOf (trail ++ rest)) = false ∧
      (trail = [] → kindAt (kindsOf rest) 0 ∉ gapKinds) := by
  have hover := Outlook.through_words hl (heads_spelled hh) ha (tails_spelled ht) (kindsOf trail)
  rw [← kindsOf_tokensOf, ← kindsOf_tokensOf] at hover
  simp only [kindsOf_append] at hs
  rw [← Bool.not_eq_true, enters_two_iff rfl]
  rcases hg with hnil | ⟨k, hk, hone⟩
  · obtain rfl := kindsOf_eq_nil hnil
    obtain ⟨harg, hgap⟩ := kindAt_of_word_stops (hs _ hover)
    exact ⟨harg, fun h => hgap h.1, fun _ => hgap⟩
  · rw [hone] at hs hover
    have hatom := kindAt_of_gap_stops (hs _ (hover.trans (Outlook.through_gap hk)))
    obtain ⟨g, rfl, rfl⟩ := kindsOf_eq_singleton hone
    exact ⟨gap_notMem_argument hk, fun h => hatom h.2, fun h => nomatch h⟩

/-- A call is read to its end, part by part. -/
theorem CallSpan.builds {new : List Tree} (h : CallSpan (ts, new))
    (hs : Stops (kindsOf ts) (kindsOf rest)) : Builds .call level (body .call) ts rest new [] := by
  obtain @⟨lead, a, trail, heads, tails, kids, hl, hh, ha, hr, ht, hg⟩ := h
  obtain ⟨hbeyond, htwo, hgap⟩ := beyond_of_stops level hl hh ha ht hg hs
  have hhead := kindAt_heads hh ha (kindsOf (tokensOf tails ++ (trail ++ rest)))
  have hfirst := kindAt_argument ha (kindsOf (tokensOf tails ++ (trail ++ rest)))
  rw [← kindsOf_append] at hfirst
  rw [← kindsOf_append, ← kindsOf_append] at hhead
  have htrail : Builds .call level [.optional .one [gap]] trail rest (trail.map .leaf) [] :=
    builds_maybe rfl hg hgap (Or.inr rfl)
  have htails := (builds_tails (Or.inl rfl) ht htwo hbeyond (Or.inr rfl)).trans htrail
  have hargument := hr (tokensOf tails ++ trail ++ rest) (by
    rw [List.append_assoc]
    exact beyond_tails ht hbeyond)
  have hwords := (builds_rule hargument).trans htails
  refine Builds.trans (builds_maybe (y := gap) rfl hl ?_ (Or.inl ?_))
    (Builds.trans (builds_heads (Or.inl rfl) hh ?_ (Or.inl (List.mem_append_left _ ?_))) hwords)
  all_goals simp only [List.append_assoc]
  · exact fun _ h => gap_notMem_starts h hhead
  · revert hhead
    cases kindAt (kindsOf (tokensOf heads ++ (a ++ (tokensOf tails ++ (trail ++ rest))))) 0 <;>
      decide
  · revert hfirst
    cases kindAt (kindsOf (a ++ (tokensOf tails ++ (trail ++ rest)))) 0 <;> decide
  · exact hfirst

theorem leads_call {q ks : List Kind} (h : Call q) (hs : Stops q ks) :
    Leads .call level (body .call) (q ++ ks) [] ks := by
  refine leads_of_builds fun ts rest hts hrest => ?_
  obtain ⟨new, hnew⟩ := exists_callSpan (hts.symm ▸ h)
  refine ⟨new, hnew.builds ?_⟩
  rwa [hts, hrest]

end Calls

end CommandShell.Parse
