import CommandShell.Proofs.Stopping

/-! # What is read as a command

A text is read to its end without a complaint exactly if the grammar derives its kinds. A reading
without a complaint can also stop before the end of the text; that happens exactly where a command
is followed by a redirection without a gap before it or by a second gap. -/

namespace CommandShell.Parse

open Grammar Relation Spelling CommandShell.Tree

/-- A reading without a complaint gives the tree of a command for the tokens that were read. -/
theorem isCommand_of_read {text : Text} (h : (read .command text).complaints = []) :
    (read .command text).tree.IsCommand ∧
      (read .command text).tree.tokens = (Token.scan text).take (read .command text).next := by
  have hsound := (sound_start (by decide) text).run rfl (complaints_ended.mpr h)
  obtain ⟨t, ht, -⟩ := (conserved_ended text).at_end (stack_ended text)
  obtain ⟨hshape, htokens⟩ := hsound.result t ht
  have htree : (read .command text).tree = t := by
    rw [ended] at ht
    simp [read, ht]
  have hlength : t.tokens.length = (read .command text).next := by
    have hcount := next_add_rest text
    rw [← htokens, List.length_append, ← ended] at hcount
    omega
  rw [htree]
  refine ⟨hshape.1, ?_⟩
  rw [← htokens, ← hlength, List.take_left]

/-- A reading without a complaint gives a tree of the grammar for the tokens that were read. -/
theorem neat_of_read {text : Text} (h : (read .command text).complaints = []) :
    (read .command text).tree.Neat ∧ (read .command text).tree.root = .nonterminal .command ∧
      (read .command text).tree.tokens = (Token.scan text).take (read .command text).next := by
  obtain ⟨hcommand, htokens⟩ := isCommand_of_read h
  have hfits := hcommand.fits
  refine ⟨hfits.neat _ (by simp), ?_, htokens⟩
  have hroots : [(read .command text).tree.root] = [.nonterminal .command] := hfits.roots
  exact (List.cons.inj hroots).1

theorem derives_of_read {text : Text} (h : (read .command text).complaints = []) :
    Derives .command (((Token.scan text).take (read .command text).next).map Token.kind) := by
  obtain ⟨hneat, hroot, htokens⟩ := neat_of_read h
  exact ⟨_, hneat.derivation, hroot, congrArg (List.map Token.kind) htokens⟩

/-! ### Where a reading without a complaint stops -/

theorem rest_suffix {v e : View} (h : ReflTransGen View.Smooth v e) : e.rest <:+ v.rest := by
  induction h with
  | refl => exact List.suffix_refl _
  | tail _ hstep ih => exact hstep.suffix.trans ih

/-- A mark after a command is read. -/
theorem lt_next_of_mark {text : Text} {q ks : List Kind} {mark : Kind}
    (h : (read .command text).complaints = []) (hq : Command q) (hm : mark ∈ [.semicolon, .bar])
    (htext : (Token.scan text).map Token.kind = q ++ mark :: ks) :
    q.length < (read .command text).next := by
  have hstart := at_start text
  rw [htext] at hstart
  obtain ⟨n, below, t, hn⟩ := passes_command hq hm _ _ _ hstart
  obtain ⟨c, hc⟩ : ∃ c, ended text = ((Machine.start .command text).run n).run c := by
    obtain ⟨f, hs, -⟩ := hn.stack
    exact exists_ended_eq_run (by simp [hs])
  have hclean := complaints_ended.mpr h
  rw [hc] at hclean
  have hsmooth := ((sound_start (by decide) text).run rfl hn.complaints).smooth hn.complaints hclean
  rw [← hc] at hsmooth
  have hle : (ended text).rest.length ≤ ((Machine.start .command text).run n).rest.length :=
    (rest_suffix hsmooth).length_le
  have hrest : ((Machine.start .command text).run n).rest.length = ks.length := by
    rw [← hn.kinds, Machine.kinds, List.length_map]
  have hlength : (Token.scan text).length = q.length + (ks.length + 1) := by
    rw [← List.length_map (f := Token.kind), htext, List.length_append, List.length_cons]
  have hnext := next_add_rest text
  omega

/-- The token after the last one that was read is none that could have been read. -/
theorem left_of_read {text : Text} (h : (read .command text).complaints = [])
    (hn : (read .command text).next < (Token.scan text).length) :
    ∃ p l k rest, (Token.scan text).map Token.kind = p ++ l :: k :: rest ∧
      p.length + 1 = (read .command text).next ∧ Left l k := by
  have hsmooth := (sound_start (by decide) text).smooth rfl (complaints_ended.mpr h)
  rw [← ended] at hsmooth
  have hcount := next_add_rest text
  obtain ⟨b, bs, hrest⟩ : ∃ b bs, (ended text).rest = b :: bs := by
    refine List.exists_cons_of_ne_nil fun hnil => ?_
    rw [hnil, List.length_nil] at hcount
    omega
  have htasks : (ended text).view.tasks = [] := by simp [Machine.view, stack_ended]
  rcases (steady_start text).stops hsmooth htasks (by simp [Machine.view, hrest]) with
    ⟨-, hidle⟩ | ⟨a, ⟨p, hp⟩, hleft⟩
  · -- At the start a token is needed.
    have hskip := canSkipAll_of_refused (hidle _ List.mem_cons_self)
    cases hskip
  · replace hp : Token.scan text = p ++ a :: b :: bs := by
      rw [← hrest]
      exact hp.symm
    refine ⟨p.map Token.kind, a.kind, b.kind, bs.map Token.kind, by simp [hp], ?_, ?_⟩
    · rw [hp, hrest] at hcount
      simp only [List.length_append, List.length_cons, List.length_map] at hcount ⊢
      omega
    · simpa [View.kinds, Machine.view, hrest] using hleft

theorem halts_of_left {l k : Kind} (h : Left l k) (hm : k ∉ [.semicolon, .bar])
    (hf : k ≠ .finish) : Halts l k := by
  unfold Left at h
  split at h
  · next hl =>
      refine Or.inr ⟨?_, hl⟩
      revert h hm hf
      cases k <;> decide
  · next hl =>
      refine Or.inl ⟨?_, hl⟩
      revert h hm hf
      cases k <;> decide

theorem ends_of_halts {p : List Kind} {l k : Kind} (h : Halts l k) (rest : List Kind) :
    Ends [] (p ++ [l]) (k :: rest) := by
  intro k' hk
  obtain rfl := Option.some.inj hk
  exact Or.inr ⟨l, by simp, h⟩

/-- Where a reading without a complaint stops before the end, the next token is left where it is. -/
theorem halts_of_read {text : Text} (hc : (read .command text).complaints = [])
    (hlt : (read .command text).next < (Token.scan text).length) :
    ∃ p l k rest, (Token.scan text).map Token.kind = p ++ l :: k :: rest ∧
      p.length + 1 = (read .command text).next ∧ Derives .command (p ++ [l]) ∧ Halts l k := by
  obtain ⟨p, l, k, rest, htext, hlength, hleft⟩ := left_of_read hc hlt
  have hderives := derives_of_read hc
  have hkinds : (Token.scan text).map Token.kind = (p ++ [l]) ++ k :: rest := by simp [htext]
  have htake : ((Token.scan text).take (read .command text).next).map Token.kind = p ++ [l] := by
    rw [List.map_take, hkinds]
    exact List.take_left' (by simpa using hlength)
  rw [htake] at hderives
  have hmark : k ∉ [.semicolon, .bar] := by
    intro hm
    have h := lt_next_of_mark hc (of_derives hderives) hm hkinds
    simp only [List.length_append, List.length_singleton] at h
    omega
  have hfinish : k ≠ .finish := by
    have hk : k ∈ (Token.scan text).map Token.kind := by simp [htext]
    obtain ⟨t, ht, rfl⟩ := List.mem_map.mp hk
    simpa [real] using real_of_mem_scan ht
  exact ⟨p, l, k, rest, htext, hlength, hderives, halts_of_left hleft hmark hfinish⟩

/-- What a reading without a complaint leaves does not go on with what it has read. -/
theorem ends_of_read {text : Text} (hc : (read .command text).complaints = []) :
    Ends [] (((Token.scan text).map Token.kind).take (read .command text).next)
      (((Token.scan text).map Token.kind).drop (read .command text).next) := by
  by_cases hlt : (read .command text).next < (Token.scan text).length
  · obtain ⟨p, l, k, rest, htext, hlength, -, hhalts⟩ := halts_of_read hc hlt
    have hkinds : (Token.scan text).map Token.kind = (p ++ [l]) ++ k :: rest := by simp [htext]
    have hcut : (p ++ [l]).length = (read .command text).next := by simpa using hlength
    rw [hkinds, ← hcut, List.take_left, List.drop_left]
    exact ends_of_halts hhalts rest
  · rw [List.drop_eq_nil_of_le (by simpa using Nat.le_of_not_lt hlt)]
    exact fun _ hk => nomatch hk

/-- A text is read to its end without a complaint exactly if the grammar derives its kinds. The tree
of a reading without a complaint has no mended leaf: it derives the tokens that were read, what
follows a `;` in it is no sequence, and what follows a `|` is a call. -/
theorem read_exact (text : Text) :
    ((read .command text).complaints = [] ∧
        (read .command text).next = (Token.scan text).length ↔
      Derives .command ((Token.scan text).map Token.kind)) ∧
    ((read .command text).complaints = [] →
      (read .command text).tree.IsDerivation ∧
        (read .command text).tree.root = .nonterminal .command ∧
        (read .command text).tree.LeftNested ∧
        (read .command text).tree.tokens = (Token.scan text).take (read .command text).next) := by
  refine ⟨⟨?_, ?_⟩, ?_⟩
  · rintro ⟨hc, hnext⟩
    have h := derives_of_read hc
    rwa [hnext, List.take_length] at h
  · intro h
    have hend : Ends [] ((Token.scan text).map Token.kind) [] := fun _ hk => nomatch hk
    have hread := read_command (List.append_nil _).symm (of_derives h) hend
    rwa [List.length_map] at hread
  · intro hc
    obtain ⟨hneat, hroot, htokens⟩ := neat_of_read hc
    exact ⟨hneat.derivation, hroot, hneat.nested, htokens⟩

/-- A reading stops without a complaint before the end of the text exactly if the tokens before are
a command and the next token is a redirection without a gap before it or a second gap. -/
theorem read_stops_iff (text : Text) (n : Nat) :
    (read .command text).complaints = [] ∧ (read .command text).next = n ∧
        n < (Token.scan text).length ↔
      ∃ p l k rest, (Token.scan text).map Token.kind = p ++ l :: k :: rest ∧ p.length + 1 = n ∧
        Derives .command (p ++ [l]) ∧ Halts l k := by
  constructor
  · rintro ⟨hc, rfl, hlt⟩
    exact halts_of_read hc hlt
  · rintro ⟨p, l, k, rest, htext, rfl, hderives, hhalts⟩
    have hkinds : (Token.scan text).map Token.kind = (p ++ [l]) ++ k :: rest := by simp [htext]
    obtain ⟨hc, hnext⟩ := read_command hkinds (of_derives hderives) (ends_of_halts hhalts rest)
    have hlength : (Token.scan text).length = p.length + (rest.length + 2) := by
      rw [← List.length_map (f := Token.kind), htext]
      simp
    refine ⟨hc, by simpa using hnext, ?_⟩
    omega

example : (read .command "echo a>b".toList).complaints = [] ∧
    (read .command "echo a>b".toList).next = 3 ∧ (Token.scan "echo a>b".toList).length = 5 := by
  decide +kernel

end CommandShell.Parse
