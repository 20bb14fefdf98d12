import CommandShell.Proofs.Notes

/-! # Calls, pipes and items

What the calls and pipes of a line leave in its notes, and how the items that `;` joins make up
the line. -/

namespace CommandShell

namespace Tree

/-- The parts of a call. -/
theorem IsCall.kids_cases {c : Tree} (h : IsCall c) :
    ∃ kids, c = .node .call kids ∧
      ∀ x ∈ kids, (∃ ks, IsLeaf ks x) ∨ IsRedirection x ∨ IsArgument x ∨ IsAtom x := by
  obtain ⟨hl, hh, hx, ht, hr⟩ := h
  refine ⟨_, rfl, ?_⟩
  intro y hy
  simp only [List.mem_append, List.mem_cons] at hy
  rcases hy with hy | hy | rfl | hy | hy
  · exact .inl ⟨_, hl.of_mem hy⟩
  · obtain ⟨p, hpm, rfl | rfl⟩ := mem_paired hy
    · exact .inr (.inl (hh p hpm).1)
    · exact .inl ⟨_, (hh p hpm).2⟩
  · exact .inr (.inr (.inl hx))
  · obtain ⟨p, hpm, rfl | rfl⟩ := mem_paired hy
    · exact .inl ⟨_, (ht p hpm).1⟩
    · exact .inr (.inr (.inr (ht p hpm).2))
  · exact .inl ⟨_, hr.of_mem hy⟩

theorem IsCall.noted {c : Tree} (h : IsCall c) (hp : Plain c) :
    ∃ kids, c = .node .call kids ∧ Noted (notesAll kids) c.arguments c.redirections := by
  obtain ⟨kids, rfl, hk⟩ := h.kids_cases
  refine ⟨kids, rfl, noted_all ?_⟩
  intro x hx
  have hpx := hp.kid hx
  rcases hk x hx with ⟨ks, h⟩ | h | h | h
  · exact h.noted
  · exact h.noted hpx
  · exact h.noted hpx
  · exact h.noted hpx

/-- What a call that starts with a name leaves: the name, and the notes of the rest of it. -/
structure Named (c : Tree) (name : Text) (rest : List Note) : Prop where
  isName : Application.isName name = true
  notes : c.notes = .expected :: .argument name :: .word name :: rest
  first : c.arguments.head?.map text = some name
  rest : Noted rest c.arguments.tail c.redirections

theorem IsLeaf.rule?_eq {ks : List Kind} {x : Tree} (h : IsLeaf ks x) : x.rule? = none := by
  obtain ⟨hk⟩ := h
  rfl

theorem IsRedirection.rule?_eq {t : Tree} (h : IsRedirection t) : t.rule? = some .redirection := by
  obtain ⟨kids, rfl, _⟩ := h.kids_cases
  rfl

theorem IsArgument.rule?_eq {t : Tree} (h : IsArgument t) : t.rule? = some .argument := by
  obtain ⟨kids, rfl⟩ := h.exists_node
  rfl

theorem AtMostOne.find?_eq {lead more : List Tree} (h : AtMostOne IsGap lead) :
    (lead ++ more).find? (fun k => k.rule?.isSome) = more.find? (fun k => k.rule?.isSome) := by
  rcases h with rfl | ⟨g, hg, rfl⟩
  · rfl
  · rw [List.singleton_append, List.find?_cons_of_neg (by simp [hg.rule?_eq])]

/-- A call that starts with a name has no redirection before it. -/
theorem IsCall.named_parts {c : Tree} (h : IsCall c) (hs : c.startsWithName = true) :
    ∃ lead x tails trail, c = .node .call (lead ++ x :: (paired tails ++ trail)) ∧
      AtMostOne IsGap lead ∧ IsArgument x ∧ Application.isName x.text = true ∧
      (∀ p ∈ tails, IsGap p.1 ∧ IsAtom p.2) ∧ AtMostOne IsGap trail := by
  obtain ⟨hl, hh, hx, ht, hr⟩ := h
  next lead trail heads tails x =>
  have hhead : heads = [] ∧ Application.isName x.text = true := by
    unfold startsWithName firstNode? kids at hs
    simp only [hl.find?_eq] at hs
    cases heads with
    | nil => simpa [paired, hx.rule?_eq] using hs
    | cons p ps =>
        have hp1 := (hh p (by simp)).1.rule?_eq
        simp [paired, hp1] at hs
  obtain ⟨rfl, hname⟩ := hhead
  exact ⟨lead, x, tails, trail, rfl, hl, hx, hname, ht, hr⟩

theorem IsCall.exists_named {c : Tree} (h : IsCall c) (hp : Plain c)
    (hs : c.startsWithName = true) : ∃ name rest, Named c name rest := by
  obtain ⟨lead, x, tails, trail, rfl, hl, hx, hname, ht, hr⟩ := h.named_parts hs
  have hpx : Plain x := hp.kid (by simp)
  have hxn := hx.notes_of_isName hpx hname
  have hlead : notesAll lead = [] := by
    rcases hl with rfl | ⟨g, ⟨hg⟩, rfl⟩ <;> rfl
  have hrest : ∀ y ∈ paired tails ++ trail, Noted y.notes y.arguments y.redirections := by
    intro y hy
    have hpy : Plain y := hp.kid (by simp only [List.mem_append, List.mem_cons] at hy ⊢; tauto)
    rcases List.mem_append.mp hy with hy | hy
    · obtain ⟨p, hpm, rfl | rfl⟩ := mem_paired hy
      · exact (ht p hpm).1.noted
      · exact (ht p hpm).2.noted hpy
    · exact (hr.of_mem hy).noted
  have hargs : outermostAll [.argument] lead = [] := outermostAll_eq_nil fun y hy =>
    (hl.of_mem hy).outermost_eq _
  have hreds : outermostAll [.redirection] lead = [] := outermostAll_eq_nil fun y hy =>
    (hl.of_mem hy).outermost_eq _
  have hxa : outermost [.argument] x = [x] := by
    obtain ⟨kids, rfl⟩ := hx.exists_node
    rfl
  have hxr : outermost [.redirection] x = [] := hx.outermost_eq (by decide)
  refine ⟨x.text, notesAll (paired tails ++ trail), hname, ?_, ?_, ?_⟩
  · simp [notesAll_append, hlead, hxn, paired]
  · simp [arguments, outermost_node, outermostAll_append, hargs, hxa, paired]
  · simpa [arguments, redirections, outermost_node, outermostAll_append, hargs, hreds, hxa, hxr,
      paired] using noted_all hrest

theorem IsCall.calls_eq {c : Tree} (h : IsCall c) : c.calls = [c] := by
  obtain ⟨hl, hh, hx, ht, hr⟩ := h
  rfl

theorem IsCall.items_eq {c : Tree} (h : IsCall c) : c.items = [c] := by
  obtain ⟨hl, hh, hx, ht, hr⟩ := h
  rfl

theorem IsCall.rule?_eq {c : Tree} (h : IsCall c) : c.rule? = some .call := by
  obtain ⟨hl, hh, hx, ht, hr⟩ := h
  rfl

theorem IsPipe.items_eq {p : Tree} (h : IsPipe p) : p.items = [p] := by cases h <;> rfl

theorem IsPipe.rule?_eq {p : Tree} (h : IsPipe p) : p.rule? = some .pipe := by cases h <;> rfl

/-- The calls of a pipe. Its nodes all come before the first of them, so one call fewer is
expected there than the pipe has. -/
structure Piped (p : Tree) (cs : List Tree) : Prop where
  calls : p.calls = cs
  several : 2 ≤ cs.length
  notes : p.notes = List.replicate (cs.length - 1) .expected ++ cs.flatMap Tree.notes
  each : ∀ c ∈ cs, IsCall c ∧ Plain c

theorem IsPipe.exists_piped {p : Tree} (h : IsPipe p) (hp : Plain p) : ∃ cs, Piped p cs := by
  induction h with
  | @two a s b ha hs hb =>
      obtain ⟨k, rfl, _⟩ := hs.exists_leaf
      refine ⟨[a, b], ?_, by simp, ?_, ?_⟩
      · have hac := ha.calls_eq
        have hbc := hb.calls_eq
        simp only [Tree.calls] at hac hbc
        simp [Tree.calls, outermost_node, hac, hbc]
      · simp
      · intro c hc
        rcases List.mem_cons.mp hc with rfl | hc
        · exact ⟨ha, hp.kid (by simp)⟩
        · rw [List.mem_singleton.mp hc]
          exact ⟨hb, hp.kid (by simp)⟩
  | @more q s b _ hs hb ih =>
      obtain ⟨k, rfl, _⟩ := hs.exists_leaf
      obtain ⟨cs, hcs⟩ := ih (hp.kid (by simp))
      refine ⟨cs ++ [b], ?_, ?_, ?_, ?_⟩
      · have hbc := hb.calls_eq
        have hqc := hcs.calls
        simp only [Tree.calls] at hbc hqc
        simp [Tree.calls, outermost_node, hqc, hbc]
      · have hlen := hcs.several
        rw [List.length_append]
        omega
      · have hlen := hcs.several
        have hsucc : (cs ++ [b]).length - 1 = (cs.length - 1) + 1 := by
          rw [List.length_append, List.length_singleton]
          omega
        rw [hsucc, List.replicate_succ]
        simp [hcs.notes]
      · intro c hc
        rcases List.mem_append.mp hc with hc | hc
        · exact hcs.each c hc
        · rw [List.mem_singleton.mp hc]
          exact ⟨hb, hp.kid (by simp)⟩

theorem IsItem.exists_items {t : Tree} (h : IsItem t) :
    ∃ x, t = .node .command [x] ∧ t.items = [x] ∧ (IsPipe x ∨ IsCall x) := by
  cases h with
  | @pipe x h =>
      refine ⟨x, rfl, ?_, Or.inl h⟩
      simpa [items, outermost_node] using h.items_eq
  | @call x h =>
      refine ⟨x, rfl, ?_, Or.inr h⟩
      simpa [items, outermost_node] using h.items_eq

theorem items_join {a s b : Tree} (hs : IsLeaf [.semicolon] s) :
    items (.node .command [a, s, b]) = a.items ++ b.items := by
  obtain ⟨hk⟩ := hs
  simp [items, outermost_node]

theorem IsCommand.items_ne_nil {t : Tree} (h : IsCommand t) : t.items ≠ [] := by
  induction h with
  | item h =>
      obtain ⟨x, -, hx, -⟩ := h.exists_items
      simp [hx]
  | join _ hs _ ih => simp [items_join hs, ih]

theorem IsItem.rule?_eq {t : Tree} (h : IsItem t) : t.rule? = some .command := by
  obtain ⟨x, rfl, -, -⟩ := h.exists_items
  rfl

theorem isCall_of_rule? {x : Tree} (h : IsPipe x ∨ IsCall x) (hr : x.rule? = some .call) :
    IsCall x := by
  rcases h with hpipe | hcall
  · rw [hpipe.rule?_eq] at hr
    cases hr
  · exact hcall

/-- What kids take over from their trees holds of the items. -/
theorem IsCommand.each_of_kid {P : Tree → Prop}
    (hkid : ∀ {r : Rule} {kids : List Tree}, P (.node r kids) → ∀ {x : Tree}, x ∈ kids → P x)
    {t : Tree} (h : IsCommand t) (hp : P t) : ∀ x ∈ t.items, P x ∧ (IsPipe x ∨ IsCall x) := by
  induction h with
  | item h =>
      obtain ⟨x, rfl, hx, hcase⟩ := h.exists_items
      intro y hy
      rw [hx, List.mem_singleton] at hy
      subst hy
      exact ⟨hkid hp (List.mem_singleton.mpr rfl), hcase⟩
  | join _ hs hb ih =>
      obtain ⟨x, rfl, hx, hcase⟩ := hb.exists_items
      intro y hy
      rw [items_join hs, hx, List.mem_append, List.mem_singleton] at hy
      rcases hy with hy | rfl
      · exact ih (hkid hp (by simp)) y hy
      · have hpb : P (.node .command [y]) := hkid hp (by simp)
        exact ⟨hkid hpb (List.mem_singleton.mpr rfl), hcase⟩

theorem IsCommand.each {t : Tree} (h : IsCommand t) (hp : Plain t) :
    ∀ x ∈ t.items, Plain x ∧ (IsPipe x ∨ IsCall x) :=
  h.each_of_kid Plain.kid hp

/-- The parts of a line are those of its items. -/
theorem IsCommand.outermost_eq {t : Tree} (h : IsCommand t) {rs : List Rule}
    (hr : .command ∉ rs) : t.outermost rs = t.items.flatMap (outermost rs) := by
  induction h with
  | item h =>
      obtain ⟨x, rfl, hx, -⟩ := h.exists_items
      simp [hx, outermost_node, hr]
  | join _ hs hb ih =>
      obtain ⟨x, rfl, hx, -⟩ := hb.exists_items
      obtain ⟨hk⟩ := hs
      rw [items_join ⟨hk⟩, hx, List.flatMap_append, ← ih]
      simp [outermost_node, hr]

/-- The parts of a pipe are those of its calls. -/
theorem IsPipe.outermost_eq {p : Tree} (h : IsPipe p) {rs : List Rule} (hr : .pipe ∉ rs) :
    p.outermost rs = p.calls.flatMap (outermost rs) := by
  induction h with
  | two ha hs hb =>
      obtain ⟨hk⟩ := hs
      have hac := ha.calls_eq
      have hbc := hb.calls_eq
      simp only [calls] at hac hbc
      simp [calls, outermost_node, hr, hac, hbc]
  | more _ hs hb ih =>
      obtain ⟨hk⟩ := hs
      have hbc := hb.calls_eq
      simp only [calls] at hbc ih
      simp [calls, outermost_node, hr, hbc, ih]

theorem IsCommand.calls_eq {t : Tree} (h : IsCommand t) : t.calls = t.items.flatMap calls :=
  h.outermost_eq (by decide)

/-- The parts of a line are those of its calls. -/
theorem IsCommand.outermost_calls {t : Tree} (h : IsCommand t) (hp : Plain t) {rs : List Rule}
    (hc : .command ∉ rs) (hr : .pipe ∉ rs) : t.outermost rs = t.calls.flatMap (outermost rs) := by
  have hitem : ∀ x ∈ t.items, outermost rs x = x.calls.flatMap (outermost rs) := by
    intro x hx
    obtain ⟨-, hpipe | hcall⟩ := h.each hp x hx
    · exact hpipe.outermost_eq hr
    · rw [hcall.calls_eq, List.flatMap_singleton]
  rw [h.outermost_eq hc, h.calls_eq, List.flatMap_assoc]
  exact List.flatMap_congr hitem

theorem IsCommand.isCall_of_mem {t : Tree} (h : IsCommand t) (hp : Plain t) {c : Tree}
    (hc : c ∈ t.calls) : IsCall c ∧ Plain c := by
  rw [h.calls_eq, List.mem_flatMap] at hc
  obtain ⟨x, hx, hcx⟩ := hc
  obtain ⟨hpx, hpipe | hcall⟩ := h.each hp x hx
  · obtain ⟨cs, hcs⟩ := hpipe.exists_piped hpx
    rw [hcs.calls] at hcx
    exact hcs.each c hcx
  · rw [hcall.calls_eq, List.mem_singleton] at hcx
    subst hcx
    exact ⟨hcall, hpx⟩

theorem IsCommand.exists_piped {t : Tree} (h : IsCommand t) (hp : Plain t) {x : Tree}
    (hx : x ∈ t.items) (hr : x.rule? = some .pipe) : ∃ cs, Piped x cs := by
  obtain ⟨hpx, hpipe | hcall⟩ := h.each hp x hx
  · exact hpipe.exists_piped hpx
  · rw [hcall.rule?_eq] at hr
    cases hr

/-- What an item leaves: its calls, after a row is expected for all but the first of them. -/
theorem IsCommand.notes_of_mem {t : Tree} (h : IsCommand t) (hp : Plain t) {x : Tree}
    (hx : x ∈ t.items) : ∃ c cs, x.calls = c :: cs ∧
      x.notes = List.replicate cs.length .expected ++ (c :: cs).flatMap notes := by
  obtain ⟨hpx, hpipe | hcall⟩ := h.each hp x hx
  · obtain ⟨cs, hcs⟩ := hpipe.exists_piped hpx
    have hseveral := hcs.several
    cases cs with
    | nil => simp at hseveral
    | cons c cs => exact ⟨c, cs, hcs.calls, by simpa using hcs.notes⟩
  · exact ⟨x, [], hcall.calls_eq, by simp⟩

theorem IsCommand.exists_named {t : Tree} (h : IsCommand t) (hp : Plain t)
    (hn : ∀ c ∈ t.calls, c.startsWithName = true) :
    ∀ c ∈ t.calls, ∃ name rest, Named c name rest := by
  intro c hc
  obtain ⟨hcall, hpc⟩ := h.isCall_of_mem hp hc
  exact hcall.exists_named hpc (hn c hc)

/-- Items that are no pipes are calls. -/
theorem IsCommand.flatMap_calls {t : Tree} (h : IsCommand t) (hp : Plain t) {xs : List Tree}
    (hs : xs ⊆ t.items) (hc : ∀ x ∈ xs, x.rule? = some .call) : xs.flatMap calls = xs := by
  have hone : ∀ x ∈ xs, x.calls = [x] := by
    intro x hx
    have hcall := isCall_of_rule? (h.each hp x (hs hx)).2 (hc x hx)
    exact hcall.calls_eq
  rw [List.flatMap_congr hone, List.flatMap_singleton']

end Tree

end CommandShell
