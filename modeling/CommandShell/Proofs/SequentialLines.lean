import CommandShell.Proofs.CallLines

/-! # Lines one after another

Two lines of calls with `;` between them are not always run as the two lines one after another. All
that stands between back quotes in either line is run before any call of the lines, and all calls
share one output, so that a redirection in the second line also takes what the first has given
out. -/

namespace CommandShell

/-! ### Rows of lines -/

namespace Tree

variable {b : List (List Text)} {c : Tree}

/-- Without `<` no file is read. -/
theorem Blocked.readsNothing (h : c.Blocked b) (hs : ['<'] ∉ c.signs) :
    Command.ReadsNothing (textRows b) := by
  obtain ⟨name, hn, words, others, rfl, hothers⟩ := h.shaped
  intro row hrow
  obtain ⟨texts, htexts, rfl⟩ := List.mem_map.mp hrow
  rcases List.mem_cons.mp htexts with rfl | hmem
  · exact ⟨.text name, words.map .text, rfl, isText_of_isName hn (by decide)⟩
  · obtain ⟨s, rest, rfl, -, hsign⟩ := hothers texts hmem
    refine ⟨.text s, rest.map .text, rfl, ?_⟩
    rw [Value.isText, decide_eq_false_iff_not]
    rintro rfl
    exact hs hsign

theorem Blocked.isPlainCall (h : c.Blocked b) (hs : c.signs = []) :
    Command.IsPlainCall (textRows b) := by
  refine ⟨?_, h.readsNothing (by simp [hs])⟩
  obtain ⟨name, hn, words, others, rfl, hothers⟩ := h.shaped
  cases others with
  | nil => exact ⟨_, rfl⟩
  | cons row others =>
      obtain ⟨s, rest, -, -, hsign⟩ := hothers row (by simp)
      rw [hs] at hsign
      cases hsign

/-- A call with redirections that are not `<` has a row for one that takes the output. -/
theorem Blocked.exists_output (h : c.Blocked b) (hs : c.signs ≠ []) (hless : ['<'] ∉ c.signs) :
    ∃ row sign words rows, textRows b = row :: (sign :: words) :: rows ∧
      (sign.isText ['>'] || sign.isText ['>', '>']) = true := by
  have hlength := h.redirected hs
  obtain ⟨name, -, words, others, rfl, hothers⟩ := h.shaped
  cases others with
  | nil =>
      rw [List.length_singleton] at hlength
      omega
  | cons row others =>
      obtain ⟨s, rest, rfl, hoperator, hsign⟩ := hothers row (by simp)
      refine ⟨_, .text s, rest.map .text, textRows others, rfl, ?_⟩
      have hne : s ≠ ['<'] := fun heq => hless (heq ▸ hsign)
      simp only [operators, List.mem_cons, List.not_mem_nil, or_false, hne, false_or] at hoperator
      simpa [Value.isText] using hoperator

end Tree

theorem runBlocks_append {first : List (List (List Text))}
    (h : ∀ b ∈ first, Command.ReadsNothing (textRows b)) {w w' : World}
    {out : List Value} (hrun : runBlocks first [] w = (out, w', none))
    (second : List (List (List Text))) :
    runBlocks (first ++ second) [] w = runBlocks second out w' := by
  have hfirst : ∀ c ∈ first.map textRows, Command.ReadsNothing c := List.forall_mem_map.mpr h
  have hfault : (Command.runSequence (first.map textRows) [] [] w).fault = none :=
    congrArg (fun r => r.2.2) hrun
  have hout : (Command.runSequence (first.map textRows) [] [] w).out = out := congrArg Prod.fst hrun
  have hworld : (Command.runSequence (first.map textRows) [] [] w).world = w' :=
    congrArg (fun r => r.2.1) hrun
  rw [runBlocks, List.map_append, Command.running_runSequence_append,
    Command.Outcome.andThen_of_none hfault, Command.input_runSequence hfirst hfault, hout, hworld]
  rfl

theorem runBlocks_prefixed {blocks : List (List (List Text))}
    (h : ∀ b ∈ blocks, Command.IsPlainCall (textRows b)) (out : List Value) (w : World) :
    runBlocks blocks out w = Command.prefixed out (runBlocks blocks [] w) := by
  have hplain : ∀ c ∈ blocks.map textRows, Command.IsPlainCall c := List.forall_mem_map.mpr h
  have hrun := Command.running_runSequence_prefixed hplain [] out [] w
  rwa [List.append_nil] at hrun

/-- When the last call redirects its output, nothing is given out. -/
theorem out_runBlocks_redirected {c : Tree} {b : List (List Text)} (h : c.Blocked b)
    (hs : c.signs ≠ []) (hless : ['<'] ∉ c.signs) (blocks : List (List (List Text)))
    {w w' : World} {out : List Value} (hrun : runBlocks (blocks ++ [b]) [] w = (out, w', none)) :
    out = [] := by
  have hreads := h.readsNothing hless
  obtain ⟨row, sign, words, rows, hrows, hsign⟩ := h.exists_output hs hless
  rw [runBlocks, List.map_append, Command.running_runSequence_append] at hrun
  cases hf : (Command.runSequence (blocks.map textRows) [] [] w).fault with
  | some e =>
      rw [Command.Outcome.andThen_of_fault hf, Command.Outcome.running, hf] at hrun
      cases hrun
  | none =>
      rw [Command.Outcome.andThen_of_none hf, List.map_singleton,
        Command.running_runSequence_singleton] at hrun
      rw [hrows] at hreads hrun
      exact Command.out_call_redirected hreads hsign hrun

theorem exists_of_runMade {r : EStateM.Result Fault World (List (List (List Text)))}
    {out : List Value} {w : World} (h : runMade [] r = (out, w, none)) :
    ∃ blocks v, r = .ok blocks v ∧ runBlocks blocks [] v = (out, w, none) := by
  cases r with
  | error e v => cases h
  | ok blocks v =>
      refine ⟨blocks, v, rfl, ?_⟩
      change behind [] (runBlocks blocks [] v) = _ at h
      have hfault : (runBlocks blocks [] v).2.2 = none := congrArg (fun r => r.2.2) h
      rwa [behind, hfault, List.nil_append] at h

/-! ### Lines without back quotes -/

theorem mapM_eq_pure {α β : Type} {f : α → EStateM Fault World β} {g : α → β} {xs : List α}
    (h : ∀ x ∈ xs, f x = pure (g x)) : xs.mapM f = pure (xs.map g) := by
  induction xs with
  | nil => rfl
  | cons x xs ih =>
      rw [List.mapM_cons, h x (by simp), pure_bind, ih fun y hy => h y (by simp [hy]), pure_bind,
        List.map_cons]

/-- Without back quotes the rows of a line are the same in all worlds. -/
theorem CallLine.exists_blocks {line : Text} (h : CallLine line) (hb : Text.backQuote ∉ line)
    (run : Text → List Value → World → Running) : ∃ blocks, blocksOf run line = pure blocks := by
  have hclear : Clear line := ⟨h.complaints, hb⟩
  obtain ⟨hcommand, hplain⟩ := hclear.isCommand h.isCommand.items_ne_nil
  refine ⟨(treeOf line).items.map fun c => gather [[]] c.notes, mapM_eq_pure ?_⟩
  intro c hc
  obtain ⟨hp, hcase⟩ := hcommand.each hplain c hc
  have hcall := Tree.isCall_of_rule? hcase (h.calls c hc)
  rw [Tree.rowsIn, hcall.deeds_eq hp, Drafting.mapM_settle_all_notes, map_pure]

/-! ### Two lines -/

theorem CallLine.runLine_eq {line : Text} (h : CallLine line) (out : List Value) (w : World) :
    runLine line out w = runMade out (blocksOf runPlain line w) := h.runWith_eq out w

/-- The rows of a line depend on the deeds of its calls. -/
theorem blocksOf_of_deeds {line : Text} {dss : List (List Deed)}
    (h : (treeOf line).items.map Tree.deeds = dss) (run : Text → List Value → World → Running) :
    blocksOf run line = dss.mapM fun ds => gather [[]] <$> ds.mapM (Drafting.settle run) := by
  rw [← h, List.mapM_map]
  rfl

/-- A substitution that leaves the world alone is its word. -/
theorem Drafting.substitution_eq {run : Text → List Value → World → Running}
    {t before line after word : Text} {out : List Value}
    (hquoted : backQuoted? t = some (before, line, after))
    (hrun : ∀ w, run line [.text before] w = (out, w, none))
    (hword : joined 0 (trimLast out ++ [.text after]) = .ok word) :
    substitution run t = pure word := by
  funext w
  exact substitution_of_ok hquoted (hrun w) hword

/-- Making the rows of the second line and running the calls of the first comes to the same in
either order. -/
def RowsCommute (line more : Text) (w : World) : Prop :=
  ∀ first w', blocksOf runPlain line w = .ok first w' →
    ∃ second v v', blocksOf runPlain more w' = .ok second v ∧
      blocksOf runPlain more (runBlocks first [] w').2.1 = .ok second v' ∧
      runBlocks first [] v = ((runBlocks first [] w').1, v', (runBlocks first [] w').2.2)

theorem rowsCommute_of_pure {line more : Text} {blocks : List (List (List Text))}
    (h : blocksOf runPlain more = pure blocks) (w : World) : RowsCommute line more w := by
  intro first w' _
  rw [h]
  exact ⟨blocks, w', (runBlocks first [] w').2.1, rfl, rfl, rfl⟩

namespace CallLine

variable {line more : Text}

theorem signs_subset (h : CallLine line) {c : Tree} (hc : c ∈ (treeOf line).items) :
    c.signs ⊆ (treeOf line).signs := by
  apply List.map_subset
  intro r hr
  rw [Tree.redirections, h.isCommand.outermost_eq (by decide)]
  exact List.mem_flatMap.mpr ⟨c, hc, hr⟩

theorem readsNothing_blocks (h : CallLine line) (hs : ['<'] ∉ (treeOf line).signs)
    {blocks : List (List (List Text))} {w w' : World}
    (hb : blocksOf runPlain line w = .ok blocks w') :
    ∀ b ∈ blocks, Command.ReadsNothing (textRows b) := by
  intro b hmem
  obtain ⟨c, hc, hblocked⟩ := h.exists_call_of_mem hb b hmem
  exact hblocked.readsNothing fun hless => hs (h.signs_subset hc hless)

theorem isPlainCall_blocks (h : CallLine line) (hs : (treeOf line).signs = [])
    {blocks : List (List (List Text))} {w w' : World}
    (hb : blocksOf runPlain line w = .ok blocks w') :
    ∀ b ∈ blocks, Command.IsPlainCall (textRows b) := by
  intro b hmem
  obtain ⟨c, hc, hblocked⟩ := h.exists_call_of_mem hb b hmem
  exact hblocked.isPlainCall (List.subset_nil.mp (hs ▸ h.signs_subset hc))

/-- The last rows of a line are those of its last call. -/
theorem exists_last_block (h : CallLine line) {c : Tree} (hc : c ∈ (treeOf line).items.getLast?)
    {blocks : List (List (List Text))} {w w' : World}
    (hb : blocksOf runPlain line w = .ok blocks w') :
    ∃ others b, blocks = others ++ [b] ∧ c.Blocked b := by
  obtain ⟨calls, hitems⟩ := List.getLast?_eq_some_iff.mp hc
  have hrows := List.forall₂_reverse_iff.mpr (h.forall₂_blocks hb)
  rw [hitems, List.reverse_append, List.reverse_singleton, List.singleton_append,
    List.forall₂_cons_left_iff] at hrows
  obtain ⟨b, others, hblocked, -, hreverse⟩ := hrows
  refine ⟨others.reverse, b, ?_, hblocked⟩
  rw [← List.reverse_reverse blocks, hreverse, List.reverse_cons]

/-- When the last call of the second line redirects its output, also the output of the first line
is given out no more. -/
theorem out_join_of_redirected (h : CallLine line) (h' : CallLine more) (hend : ReadToEnd line)
    {c : Tree} (hc : c ∈ (treeOf more).items.getLast?) (hs : c.signs ≠ [])
    (hless : ['<'] ∉ c.signs) {w w' : World} {out : List Value}
    (hrun : runLine (line ++ ';' :: more) [] w = (out, w', none)) : out = [] := by
  obtain ⟨hjoined, hblocks⟩ := h.join h' hend runPlain
  rw [hjoined.runLine_eq] at hrun
  obtain ⟨blocks, v, hmade, hran⟩ := exists_of_runMade hrun
  rw [hblocks] at hmade
  obtain ⟨first, w₁, -, hrest⟩ := Drafting.exists_of_bind_eq_ok hmade
  obtain ⟨second, w₂, hsecond, hpure⟩ := Drafting.exists_of_bind_eq_ok hrest
  cases hpure
  obtain ⟨others, b, rfl, hblocked⟩ := h'.exists_last_block hc hsecond
  rw [← List.append_assoc] at hran
  exact out_runBlocks_redirected hblocked hs hless _ hran

/-- Lines that can be run one after another can be run with `;` between them. -/
theorem runLine_join_of_rowsCommute (h : CallLine line) (h' : CallLine more) (hend : ReadToEnd line)
    (hless : ['<'] ∉ (treeOf line).signs) {w w₁ w₂ : World} {out₁ out₂ : List Value}
    (hfirst : runLine line [] w = (out₁, w₁, none))
    (hsecond : runLine more [] w₁ = (out₂, w₂, none)) (hcommute : RowsCommute line more w)
    (hout : out₁ = [] ∨ (treeOf more).signs = []) :
    runLine (line ++ ';' :: more) [] w = (out₁ ++ out₂, w₂, none) := by
  obtain ⟨hjoined, hblocks⟩ := h.join h' hend runPlain
  rw [h.runLine_eq] at hfirst
  rw [h'.runLine_eq] at hsecond
  obtain ⟨first, w', hmade, hran⟩ := exists_of_runMade hfirst
  obtain ⟨second, v, v', hmore, hmore', hagain⟩ := hcommute first w' hmade
  rw [hran] at hmore' hagain
  rw [hmore'] at hsecond
  obtain ⟨blocks, v'', heq, hran'⟩ := exists_of_runMade hsecond
  obtain ⟨rfl, rfl⟩ : second = blocks ∧ v' = v'' := by
    cases heq
    exact ⟨rfl, rfl⟩
  have hall : runBlocks (first ++ second) [] v = (out₁ ++ out₂, w₂, none) := by
    rw [runBlocks_append (h.readsNothing_blocks hless hmade) hagain]
    rcases hout with rfl | hsigns
    · rw [hran', List.nil_append]
    · rw [runBlocks_prefixed (h'.isPlainCall_blocks hsigns hmore), hran']
      rfl
  rw [hjoined.runLine_eq, hblocks, Drafting.bind_eq_of_ok hmade, Drafting.bind_eq_of_ok hmore]
  change behind [] (runBlocks (first ++ second) [] v) = _
  rw [hall]
  rfl

end CallLine

/-- Two lines of calls with `;` between them. What is left over in the first line hides the second
line. Otherwise the rows of both lines are made, with all that stands between back quotes run, before
any call is run, and the calls share one output. So the lines are run as one after the other if
making the rows of the second line commutes with running the calls of the first and no redirection
takes what the first line has given out, while a redirection of the last call takes all of it. -/
theorem runLine_semicolon {line more : Text} (h : CallLine line) (h' : CallLine more) (w : World) :
    (¬ ReadToEnd line → ∀ out, runLine (line ++ ';' :: more) out w = runLine line out w) ∧
    (ReadToEnd line → ∀ out, runLine (line ++ ';' :: more) out w =
      runMade out ((do
        let first ← blocksOf runPlain line
        let second ← blocksOf runPlain more
        pure (first ++ second)) w)) ∧
    (ReadToEnd line → ['<'] ∉ (treeOf line).signs → ∀ out₁ w₁ out₂ w₂,
      runLine line [] w = (out₁, w₁, none) → runLine more [] w₁ = (out₂, w₂, none) →
        RowsCommute line more w → out₁ = [] ∨ (treeOf more).signs = [] →
          runLine (line ++ ';' :: more) [] w = (out₁ ++ out₂, w₂, none)) ∧
    (Text.backQuote ∉ more → RowsCommute line more w) ∧
    (ReadToEnd line → ∀ c ∈ (treeOf more).items.getLast?, c.signs ≠ [] → ['<'] ∉ c.signs →
      ∀ out w', runLine (line ++ ';' :: more) [] w = (out, w', none) → out = []) := by
  refine ⟨?_, ?_, ?_, ?_, ?_⟩
  · intro hend out
    obtain ⟨hjoined, hblocks⟩ := h.stopped hend more runPlain
    rw [hjoined.runLine_eq, h.runLine_eq, hblocks]
  · intro hend out
    obtain ⟨hjoined, hblocks⟩ := h.join h' hend runPlain
    rw [hjoined.runLine_eq, hblocks]
  · intro hend hless out₁ w₁ out₂ w₂ hfirst hsecond hcommute hout
    exact h.runLine_join_of_rowsCommute h' hend hless hfirst hsecond hcommute hout
  · intro hback
    obtain ⟨blocks, hpure⟩ := h'.exists_blocks hback runPlain
    exact rowsCommute_of_pure hpure w
  · intro hend c hc hs hless out w' hrun
    exact h.out_join_of_redirected h' hend hc hs hless hrun

/-- What stands between back quotes in the second line is run, and its output given to `echo`. -/
theorem runLine_semicolon_nested :
    runLine "echo a;echo `echo b`".toList [] World.bare =
      ([.text "a ".toList, .text "b ".toList], World.bare, none) := by
  have hline : "echo a;echo `echo b`".toList = "echo a".toList ++ ';' :: "echo `echo b`".toList := by
    decide
  have hfirst : CallLine "echo a".toList :=
    ⟨by decide +kernel, by decide +kernel, by decide +kernel⟩
  have hsecond : CallLine "echo `echo b`".toList :=
    ⟨by decide +kernel, by decide +kernel, by decide +kernel⟩
  have hinner : CallLine "echo b".toList :=
    ⟨by decide +kernel, by decide +kernel, by decide +kernel⟩
  have hdeeds : (treeOf "echo a".toList).items.map Tree.deeds = [[.note .expected,
      .note (.argument "echo".toList), .note (.word "echo".toList), .note (.argument "a".toList),
      .note (.word "a".toList)]] := by decide +kernel
  have hdeeds' : (treeOf "echo `echo b`".toList).items.map Tree.deeds = [[.note .expected,
      .note (.argument "echo".toList), .note (.word "echo".toList),
      .note (.argument "`echo b`".toList), .substitute "`echo b`".toList]] := by decide +kernel
  have hdeeds'' : (treeOf "echo b".toList).items.map Tree.deeds = [[.note .expected,
      .note (.argument "echo".toList), .note (.word "echo".toList), .note (.argument "b".toList),
      .note (.word "b".toList)]] := by decide +kernel
  have hechoed : ∀ w, runPlain "echo b".toList [.text []] w =
      ([.text [], .text "b ".toList], w, none) := by
    intro w
    rw [runPlain, hinner.runWith_eq, blocksOf_of_deeds hdeeds'']
    rfl
  have hquoted : Drafting.backQuoted? "`echo b`".toList = some ([], "echo b".toList, []) := by decide
  have hrows : blocksOf runPlain "echo `echo b`".toList = pure [[["echo".toList, "b".toList]]] := by
    rw [blocksOf_of_deeds hdeeds']
    simp only [List.mapM_cons, List.mapM_nil, Drafting.settle,
      Drafting.substitution_eq hquoted hechoed rfl]
    rfl
  have hran : runLine "echo a".toList [] World.bare = ([.text "a ".toList], World.bare, none) := by
    rw [hfirst.runLine_eq, blocksOf_of_deeds hdeeds]
    rfl
  have hran' : runLine "echo `echo b`".toList [] World.bare =
      ([.text "b ".toList], World.bare, none) := by
    rw [hsecond.runLine_eq, hrows]
    rfl
  rw [hline]
  exact (runLine_semicolon hfirst hsecond World.bare).2.2.1 (by decide +kernel) (by decide +kernel)
    _ _ _ _ hran hran' (rowsCommute_of_pure hrows World.bare) (Or.inr (by decide +kernel))

end CommandShell
