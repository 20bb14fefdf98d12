import CommandShell.Proofs.Rows

/-! # Sequences of calls

A line of calls without pipes comes to one command that has the rows of all its calls. Each call
expects one row and each redirection one more, so rows and expected rows stay the same in number
and no further argument can start a row. -/

namespace CommandShell

namespace Draft

variable {rows : List (List Text)} {sequences : Nat}

/-- The queue after `n` items without a pipe. -/
def callsQueue (n : Nat) : List Plan := if n ≤ 1 then [] else [.sequence 0]

theorem closeSequence_flat (n : Nat) :
    (flat rows sequences (callsQueue n)).closeSequence =
      flat rows sequences [.sequence 0] := by
  by_cases hn : n ≤ 1
  · rw [callsQueue, if_pos hn]
    rfl
  · rw [callsQueue, if_neg hn]
    simp [closeSequence, flat, planRows, treeRows]

theorem resolve_single_flat (queue : List Plan) :
    (flat rows sequences queue).resolve (flat rows sequences queue).single = [(.call, rows)] := by
  change [(Form.call, (flat rows sequences queue).words (List.range rows.length))] = _
  rw [words_flat]

theorem resolve_queued_flat :
    (flat rows sequences [.sequence 0]).resolve (flat rows sequences [.sequence 0]).queued =
      [(.sequence, rows)] := by
  change [(Form.sequence, (flat rows sequences [.sequence 0]).words (List.range rows.length))] = _
  rw [words_flat]

/-- A line of calls comes to one command with all rows of its draft. -/
theorem commands_calls {t : Tree} (h : t.IsCommand) (hc : ∀ x ∈ t.items, x.rule? = some .call) :
    Drafting.commands t (flat rows sequences (callsQueue t.items.length)) =
      [(if t.items.length = 1 then .call else .sequence, List.range rows.length)] := by
  have hpos := List.length_pos_of_ne_nil h.items_ne_nil
  rw [h.commands_eq]
  by_cases hone : t.items.length = 1
  · have hrules : t.items.map Tree.rule? = [some .call] := by
      obtain ⟨c, hx⟩ := List.length_eq_one_iff.mp hone
      rw [hx, List.map_singleton, hc c (by simp [hx])]
    rw [if_pos hrules, if_pos hone]
    rfl
  · have hrules : t.items.map Tree.rule? ≠ [some .call] := by
      intro heq
      apply hone
      rw [← List.length_map, heq]
      rfl
    rw [if_neg hrules, if_neg hone, callsQueue, if_neg (by omega)]
    rfl

theorem item_call {c : Tree} (hc : c.rule? = some .call) (d : Draft) :
    d.item c = follow c.notes d := by
  rw [item, if_neg (by simp [hc])]

/-- A call in a draft that expects no row. -/
theorem item_flat {c : Tree} (hc : c.rule? = some .call) (hn : ∃ name rest, c.Named name rest)
    (rows : List (List Text)) (queue : List Plan) :
    (flat rows rows.length queue).item c =
      .ok (flat (rows ++ c.rows) (rows ++ c.rows).length queue) := by
  have hone : ∀ x ∈ [c], ∃ name rest, x.Named name rest := by simpa using hn
  have hfollow := Tree.follow_calls hone (Or.inl (rfl : 0 = 0)) rows queue
  simpa [item_call hc] using hfollow

theorem join_flat {cs : List Tree} (hc : ∀ c ∈ cs, c.rule? = some .call)
    (hn : ∀ c ∈ cs, ∃ name rest, c.Named name rest) (rows : List (List Text)) (n : Nat) :
    join cs (flat rows rows.length (callsQueue (n + 1))) =
      .ok (flat (rows ++ cs.flatMap Tree.rows) (rows ++ cs.flatMap Tree.rows).length
        (callsQueue (n + 1 + cs.length))) := by
  induction cs generalizing rows n with
  | nil => simp [join]
  | cons c cs ih =>
      have hitem := item_flat (hc c (by simp)) (hn c (by simp)) rows (callsQueue (n + 1))
      have hqueue : [Plan.sequence 0] = callsQueue (n + 1 + 1) := by
        rw [callsQueue, if_neg (by omega)]
      have hcount : n + 1 + 1 + cs.length = n + 1 + (c :: cs).length := by
        rw [List.length_cons]
        omega
      rw [join, hitem, List.flatMap_cons, ← List.append_assoc, ← hcount]
      calc
        join cs (flat (rows ++ c.rows) (rows ++ c.rows).length (callsQueue (n + 1))).closeSequence
          = join cs (flat (rows ++ c.rows) (rows ++ c.rows).length (callsQueue (n + 1 + 1))) := by
            rw [closeSequence_flat, hqueue]
        _ = _ := ih (fun x hx => hc x (by simp [hx])) (fun x hx => hn x (by simp [hx])) _ _

/-- The draft of a line of calls. -/
theorem ofItems_calls {cs : List Tree} (hne : cs ≠ []) (hc : ∀ c ∈ cs, c.rule? = some .call)
    (hn : ∀ c ∈ cs, ∃ name rest, c.Named name rest) :
    ofItems cs Draft.empty =
      .ok (flat (cs.flatMap Tree.rows) (cs.flatMap Tree.rows).length (callsQueue cs.length)) := by
  obtain ⟨c, cs, rfl⟩ := List.exists_cons_of_ne_nil hne
  have hitem : Draft.empty.item c = .ok (flat c.rows c.rows.length (callsQueue (0 + 1))) :=
    item_flat (hc c (by simp)) (hn c (by simp)) [] []
  have hcount : 0 + 1 + cs.length = (c :: cs).length := by
    rw [List.length_cons]
    omega
  rw [ofItems, hitem, List.flatMap_cons, ← hcount]
  exact join_flat (fun x hx => hc x (by simp [hx])) (fun x hx => hn x (by simp [hx])) c.rows 0

end Draft

namespace Tree

theorem Named.length_rows {c : Tree} {name : Text} {rest : List Note} (h : c.Named name rest) :
    c.rows.length = 1 + c.redirections.length := by
  rw [h.rows_eq, length_gather, h.rest.redirections, List.length_map]
  rfl

/-- Each call has a row for its words, and each redirection has one. -/
theorem length_flatMap_rows {cs : List Tree} (hn : ∀ c ∈ cs, ∃ name rest, c.Named name rest) :
    (cs.flatMap rows).length = cs.length + (cs.flatMap redirections).length := by
  induction cs with
  | nil => rfl
  | cons c cs ih =>
      obtain ⟨name, rest, h⟩ := hn c (by simp)
      have hrest := ih fun x hx => hn x (by simp [hx])
      rw [List.flatMap_cons, List.flatMap_cons, List.length_append, List.length_append, hrest,
        h.length_rows, List.length_cons]
      omega

end Tree

/-- A line of calls, each of which starts with a name, comes to one command with the rows of the
calls, whatever their further arguments are. -/
theorem calls_drafted {line : Text} (h : Clear line) (hne : (treeOf line).items ≠ [])
    (hc : ∀ x ∈ (treeOf line).items, x.rule? = some .call)
    (hn : ∀ c ∈ (treeOf line).calls, c.startsWithName = true) (w : World) :
    (draftLine line w).resolved =
        .ok [(if (treeOf line).calls.length = 1 then .call else .sequence,
          (treeOf line).calls.flatMap Tree.rows)] ∧
      (draftLine line w).draft.sequences = (draftLine line w).draft.tree.length ∧
      (draftLine line w).draft.tree.length =
        (treeOf line).calls.length + (treeOf line).redirections.length ∧
      (draftLine line w).draft.position = (draftLine line w).draft.tree.length - 1 := by
  obtain ⟨htree, hplain⟩ := h.isCommand hne
  have hcalls : (treeOf line).calls = (treeOf line).items :=
    htree.calls_eq.trans (htree.flatMap_calls hplain (List.Subset.refl _) hc)
  have hnamed := htree.exists_named hplain hn
  have hreds : (treeOf line).redirections = (treeOf line).items.flatMap Tree.redirections :=
    htree.outermost_eq (by decide)
  rw [hcalls] at hnamed
  have hdraft := Draft.ofItems_calls hne hc hnamed
  have hlength := Tree.length_flatMap_rows hnamed
  rw [draftLine, h.draftWith_eq, hdraft, hcalls, hreds]
  refine ⟨?_, ?_, ?_, ?_⟩
  · rw [drafted, Drafted.resolved, htree.commands_eq]
    by_cases hone : (treeOf line).items.length = 1
    · have hrules : (treeOf line).items.map Tree.rule? = [some .call] := by
        obtain ⟨c, hx⟩ := List.length_eq_one_iff.mp hone
        rw [hx, List.map_singleton, hc c (by simp [hx])]
      rw [if_pos hrules, if_pos hone]
      rw [Except.map, Draft.resolve_single_flat]
    · have hrules : (treeOf line).items.map Tree.rule? ≠ [some .call] := by
        intro heq
        apply hone
        rw [← List.length_map, heq]
        rfl
      have hseveral : ¬ (treeOf line).items.length ≤ 1 := by
        have hpos := List.length_pos_of_ne_nil hne
        omega
      rw [if_neg hrules, if_neg hone, Draft.callsQueue, if_neg hseveral]
      rw [Except.map, Draft.resolve_queued_flat]
  · simp [drafted, Draft.flat]
  · simp [drafted, Draft.flat, hlength]
  · simp [drafted, Draft.flat]

/-- Names among the further arguments start no call, also after a redirection. -/
theorem calls_drafted_names_inside :
    Clear "echo cat 'a b' >> f ; cat < f echo".toList ∧
      (draftLine "echo cat 'a b' >> f ; cat < f echo".toList World.bare).resolved =
        .ok [(.sequence,
          [["echo".toList, "cat".toList, "'a b'".toList], [">>".toList, "f".toList],
            ["cat".toList], ["<".toList, "f".toList, "echo".toList]])] := by
  have hclear : Clear "echo cat 'a b' >> f ; cat < f echo".toList :=
    ⟨by decide +kernel, by decide +kernel⟩
  have hdraft := calls_drafted hclear (by decide +kernel) (by decide +kernel) (by decide +kernel)
    World.bare
  refine ⟨hclear, hdraft.1.trans ?_⟩
  decide +kernel

end CommandShell
