import CommandShell.Proofs.Pipelines

/-! # Lines of calls and pipes

A pipe takes its rows out of the tree but words still go to the place behind them. The next call
opens a row at another place, so its name finds no row: nothing can follow a pipe. Calls before
a pipe are met as a sequence that later also has the rows of the pipe. -/

namespace CommandShell

namespace Command

/-- Rows that do not start with a name belong to the call before them. -/
theorem decodeAfter_append {rows : List (List Text)} (hr : [] ∉ rows) (hn : rowNames rows = [])
    (current more : List Row) :
    decodeAfter current (textRows rows ++ more) = decodeAfter (current ++ textRows rows) more := by
  induction rows generalizing current with
  | nil => simp [textRows]
  | cons row rows ih =>
      cases row with
      | nil => exact absurd List.mem_cons_self hr
      | cons word words =>
          have hrows : [] ∉ rows := fun hm => hr (List.mem_cons_of_mem _ hm)
          have hword : Application.isName word = false ∧ rowNames rows = [] := by
            simpa [rowNames, heads, List.filter_cons, ite_eq_iff] using hn
          have hrow : textRows ((word :: words) :: rows) =
              (.text word :: words.map .text) :: textRows rows := rfl
          rw [hrow, List.cons_append, decodeAfter, namesApplication, if_neg (by simp [hword.1]),
            ih hrows hword.2, List.append_assoc]
          rfl

end Command

namespace Tree

/-- A call as the rows that are run for it. -/
def callRows (c : Tree) : List Row := textRows c.rows

/-- The first row of a call starts with its name, the others with operators. -/
theorem Named.callRows_eq {c : Tree} {name : Text} {rest : List Note} (h : c.Named name rest) :
    ∃ words others, c.callRows = (.text name :: words) :: textRows others ∧
      [] ∉ others ∧ rowNames others = [] := by
  have hname : [] ∉ [[name]] := by simp
  have hadded := h.rest.orderly.rowsAdded hname 0
  rw [collect_eq_gather h.rest.orderly (Or.inl rfl), ← h.rows_eq] at hadded
  obtain ⟨hfilled, ⟨more, hheads, hmore⟩, -⟩ := hadded
  rw [callRows]
  cases hrows : c.rows with
  | nil => simp [hrows, heads] at hheads
  | cons row others =>
      rw [hrows] at hfilled hheads
      cases row with
      | nil => exact absurd List.mem_cons_self hfilled
      | cons first words =>
          have hcons : first = name ∧ heads others = more := by simpa [heads] using hheads
          obtain ⟨rfl, hothers⟩ := hcons
          refine ⟨words.map .text, others, rfl, fun hm => hfilled (List.mem_cons_of_mem _ hm), ?_⟩
          rw [rowNames, hothers, hmore]
          rfl

theorem textRows_cons (c : Tree) (cs : List Tree) :
    textRows ((c :: cs).flatMap rows) = c.callRows ++ textRows (cs.flatMap rows) := by
  rw [List.flatMap_cons, textRows, List.map_append]
  rfl

theorem Named.decodeAfter_eq {c : Tree} {name : Text} {rest : List Note} (h : c.Named name rest)
    (current more : List Row) :
    Command.decodeAfter current (c.callRows ++ more) =
      ⟨current :: (Command.decodeAfter c.callRows more).calls,
        (Command.decodeAfter c.callRows more).left⟩ := by
  obtain ⟨words, others, hcall, hfilled, hnames⟩ := h.callRows_eq
  have hname : Command.namesApplication (.text name) = true := h.isName
  rw [hcall, List.cons_append, Command.decodeAfter, if_pos hname,
    Command.decodeAfter_append hfilled hnames]
  rfl

theorem decodeAfter_flatMap {cs : List Tree} (hn : ∀ c ∈ cs, ∃ name rest, c.Named name rest)
    (current : List Row) :
    Command.decodeAfter current (textRows (cs.flatMap rows)) =
      ⟨current :: cs.map callRows, none⟩ := by
  induction cs generalizing current with
  | nil => rfl
  | cons c cs ih =>
      obtain ⟨name, rest, h⟩ := hn c (by simp)
      rw [textRows_cons, h.decodeAfter_eq, ih fun x hx => hn x (by simp [hx])]
      rfl

/-- The rows of calls are decoded to these calls. -/
theorem decode_flatMap {cs : List Tree} (hne : cs ≠ [])
    (hn : ∀ c ∈ cs, ∃ name rest, c.Named name rest) :
    Command.decode (textRows (cs.flatMap rows)) = ⟨cs.map callRows, none⟩ := by
  obtain ⟨c, cs, rfl⟩ := List.exists_cons_of_ne_nil hne
  obtain ⟨name, rest, h⟩ := hn c (by simp)
  obtain ⟨words, others, hcall, hfilled, hnames⟩ := h.callRows_eq
  rw [textRows_cons, hcall, List.cons_append, Command.decode,
    Command.decodeAfter_append hfilled hnames, List.singleton_append, ← hcall,
    decodeAfter_flatMap fun x hx => hn x (by simp [hx])]
  rfl

/-- The first pipe of a line with its calls, the calls before it and what comes after it. -/
structure FirstPipe (t : Tree) (before : List Tree) (p : Tree) (cs after : List Tree) : Prop where
  items : t.items = before ++ p :: after
  single : ∀ c ∈ before, c.rule? = some .call
  rule : p.rule? = some .pipe
  piped : p.Piped cs
  calls : t.calls = before ++ cs ++ after.flatMap Tree.calls

theorem IsCommand.exists_firstPipe {t : Tree} (h : IsCommand t) (hp : Plain t)
    (hpipe : ∃ x ∈ t.items, x.rule? = some .pipe) :
    ∃ before p cs after, FirstPipe t before p cs after := by
  obtain ⟨p, hfind⟩ : ∃ p, t.items.find? (fun x => x.rule? = some .pipe) = some p := by
    apply Option.isSome_iff_exists.mp
    rw [List.find?_isSome]
    simpa using hpipe
  obtain ⟨hrule, before, after, hitems, hbefore⟩ := List.find?_eq_some_iff_append.mp hfind
  have hr : p.rule? = some .pipe := by simpa using hrule
  have hc : ∀ c ∈ before, c.rule? = some .call := by
    intro c hc
    have hnot : c.rule? ≠ some .pipe := by simpa using hbefore c hc
    obtain ⟨-, hpipe' | hcall⟩ := h.each hp c (by simp [hitems, hc])
    · exact absurd hpipe'.rule?_eq hnot
    · exact hcall.rule?_eq
  obtain ⟨cs, hpiped⟩ := h.exists_piped hp (by simp [hitems]) hr
  have hcalls : before.flatMap Tree.calls = before := by
    apply h.flatMap_calls hp _ hc
    rw [hitems]
    exact List.subset_append_left _ _
  refine ⟨before, p, cs, after, hitems, hc, hr, hpiped, ?_⟩
  rw [h.calls_eq, hitems, List.flatMap_append, List.flatMap_cons, hcalls, hpiped.calls,
    List.append_assoc]

theorem FirstPipe.stages_ne_nil {t p : Tree} {before cs after : List Tree}
    (h : t.FirstPipe before p cs after) (hn : ∀ c ∈ t.calls, ∃ name rest, c.Named name rest) :
    cs.flatMap Tree.rows ≠ [] := by
  have hseveral := h.piped.several
  have hnamed : ∀ c ∈ cs, ∃ name rest, c.Named name rest := fun c hc => hn c (by simp [h.calls, hc])
  apply List.ne_nil_of_length_pos
  rw [length_flatMap_rows hnamed]
  omega

end Tree

namespace Draft

/-- A draft in which the next row that is opened is not the one to which words are added. -/
structure Spent (d : Draft) : Prop where
  position : (d.tree.length : Int) ≤ d.position
  sequences : d.tree.length < d.sequences

theorem Spent.expectRow {d : Draft} (h : d.Spent) : d.expectRow.Spent :=
  ⟨h.position, Nat.lt_succ_of_lt h.sequences⟩

theorem Spent.closeSequence {d : Draft} (h : d.Spent) : d.closeSequence.Spent := by
  obtain ⟨queue, hclosed⟩ := d.exists_closeSequence
  rw [hclosed]
  exact ⟨h.position, h.sequences⟩

theorem Spent.follow_expected {d : Draft} (h : d.Spent) (n : Nat) :
    ∃ d', follow (List.replicate n .expected) d = .ok d' ∧ d'.Spent := by
  induction n generalizing d with
  | zero => exact ⟨d, rfl, h⟩
  | succ n ih => exact ih h.expectRow

/-- The name of the call finds no row. -/
theorem Spent.follow_named {d : Draft} (h : d.Spent) {c : Tree} {name : Text} {rest : List Note}
    (hc : c.Named name rest) : ∃ d', follow c.notes d = .error d' := by
  have hpos := h.position
  have hseq := h.sequences
  have hopen : (Application.isName name &&
      d.expectRow.tree.length ≠ d.expectRow.sequences) = true := by
    rw [Bool.and_eq_true_iff]
    refine ⟨hc.isName, decide_eq_true ?_⟩
    change d.tree.length ≠ d.sequences + 1
    omega
  have hrow : (d.expectRow.openRow []).currentRow? = none := by
    have hlength : (d.expectRow.openRow []).tree.length = d.tree.length + 1 := by
      simp [openRow, Draft.expectRow]
    have hposition : (d.expectRow.openRow []).position = d.position + 1 := rfl
    rw [currentRow?, if_pos (by omega), List.getElem?_eq_none (by omega)]
  rw [hc.notes]
  change ∃ d', follow (.argument name :: .word name :: rest) d.expectRow = .error d'
  rw [follow, note, if_pos hopen]
  change ∃ d', follow (.word name :: rest) (d.expectRow.openRow []) = .error d'
  rw [follow, note, addWord?, hrow]
  exact ⟨_, rfl⟩

/-- Nothing can follow a pipe. -/
theorem Spent.join {d : Draft} (h : d.Spent) {t : Tree} (ht : t.IsCommand) (hp : t.Plain)
    (hn : ∀ c ∈ t.calls, c.startsWithName = true) {x : Tree} (hx : x ∈ t.items)
    (xs : List Tree) : ∃ d', join (x :: xs) d = .error d' := by
  obtain ⟨c, cs, hcalls, hnotes⟩ := ht.notes_of_mem hp hx
  obtain ⟨name, rest, hc⟩ := ht.exists_named hp hn c (by
    rw [ht.calls_eq, List.mem_flatMap]
    exact ⟨x, hx, by simp [hcalls]⟩)
  have hfollow : ∀ d : Draft, d.Spent → ∃ d', follow x.notes d = .error d' := by
    intro d hd
    obtain ⟨d₁, hd₁, hs₁⟩ := hd.follow_expected cs.length
    obtain ⟨d₂, hd₂⟩ := hs₁.follow_named hc
    refine ⟨d₂, ?_⟩
    rw [hnotes, follow_append, hd₁, List.flatMap_cons]
    change follow (c.notes ++ cs.flatMap Tree.notes) d₁ = _
    rw [follow_append, hd₂]
    rfl
  have hitem : ∃ d', d.item x = .error d' := by
    by_cases hr : x.rule? = some .pipe
    · obtain ⟨d', hd'⟩ := hfollow d.expectRow h.expectRow
      refine ⟨d', ?_⟩
      rw [item, if_pos hr, hd']
      rfl
    · obtain ⟨d', hd'⟩ := hfollow d h
      refine ⟨d', ?_⟩
      rw [item, if_neg hr, hd']
  obtain ⟨d', hd'⟩ := hitem
  refine ⟨d', ?_⟩
  rw [Draft.join, hd']
  rfl

variable {rows stages : List (List Text)} {sequences : Nat}

/-- The draft after calls with rows `rows` and a pipe with rows `stages`. -/
def piped (rows stages : List (List Text)) (sequences : Nat) (queue : List Plan) : Draft :=
  (flat (rows ++ stages) sequences queue).closePipe rows.length

/-- A pipe without further names after calls. -/
theorem item_piped {p : Tree} {cs : List Tree} (hr : p.rule? = some .pipe) (hp : p.Piped cs)
    (hn : ∀ c ∈ cs, ∃ name rest, c.Named name rest) (hf : ∀ c ∈ cs, c.furtherNames = [])
    (rows : List (List Text)) (queue : List Plan) :
    (flat rows rows.length queue).item p =
      .ok (piped rows (cs.flatMap Tree.rows)
        ((rows ++ cs.flatMap Tree.rows).length + cs.length) queue) := by
  rw [item_pipe hr hp, Tree.follow_calls hn (Or.inr hf)]
  rfl

theorem spent_piped (hs : stages ≠ []) (hq : rows.length < sequences) (queue : List Plan) :
    (piped rows stages sequences queue).Spent := by
  have hlength : (piped rows stages sequences queue).tree.length = rows.length := by
    simp [piped, closePipe, flat]
  have hposition : (piped rows stages sequences queue).position =
      ((rows ++ stages).length : Int) - 1 := rfl
  have hpos := List.length_pos_of_ne_nil hs
  rw [List.length_append] at hposition
  refine ⟨?_, ?_⟩
  · omega
  · rw [hlength]
    exact hq

theorem words_piped (queue : List Plan) :
    (piped rows stages sequences queue).words (List.range (rows ++ stages).length) =
      rows ++ stages :=
  words_range _ rfl

theorem words_take_piped (queue : List Plan) :
    (piped rows stages sequences queue).words
      ((List.range (rows ++ stages).length).take rows.length) = rows := by
  rw [words, List.map_take, ← words, words_piped, List.take_left]

theorem words_drop_piped (queue : List Plan) :
    (piped rows stages sequences queue).words
      ((List.range (rows ++ stages).length).drop rows.length) = stages := by
  rw [words, List.map_drop, ← words, words_piped, List.drop_left]

/-- The sequence of several calls that was met before a pipe also has the rows of the pipe. -/
theorem resolve_queued_piped (n : Nat) :
    (piped rows stages sequences (callsQueue n)).resolve
        (piped rows stages sequences (callsQueue n)).queued =
      (.pipe, stages) :: (if n ≤ 1 then [] else [(.sequence, rows ++ stages)]) := by
  by_cases hn : n ≤ 1
  · rw [callsQueue, if_pos hn, if_pos hn]
    change [(Form.pipe, (piped rows stages sequences []).words
      ((List.range (rows ++ stages).length).drop rows.length))] = _
    rw [words_drop_piped]
  · rw [callsQueue, if_neg hn, if_neg hn]
    change [(Form.pipe, (piped rows stages sequences [.sequence 0]).words
      ((List.range (rows ++ stages).length).drop rows.length)),
      (Form.sequence, (piped rows stages sequences [.sequence 0]).words
        (List.range (rows ++ stages).length))] = _
    rw [words_drop_piped, words_piped]

/-- A sequence that has just been met is the tree. -/
theorem resolve_sequence (d : Draft) :
    resolve { d with queue := .sequence d.past.length :: d.queue }
        (queued { d with queue := .sequence d.past.length :: d.queue }) =
      (.sequence, d.words d.tree) :: d.resolve d.queued := by
  have htree : d.treeRows d.past.length = d.tree := by simp [treeRows]
  change (Form.sequence, d.words (d.treeRows d.past.length)) :: d.resolve d.queued = _
  rw [htree]

/-- What calls and a pipe after them come to: the calls are met again after the pipe, unless it has
the same words. -/
theorem resolve_piped (hs : stages ≠ []) (n : Nat) :
    (piped rows stages sequences (callsQueue n)).closeSequence.resolve
        (piped rows stages sequences (callsQueue n)).closeSequence.queued =
      (if stages = rows then [] else [(.sequence, rows)]) ++
        (.pipe, stages) :: (if n ≤ 1 then [] else [(.sequence, rows ++ stages)]) := by
  have hmet := @resolve_queued_piped rows stages sequences n
  generalize hd : piped rows stages sequences (callsQueue n) = d at hmet ⊢
  have htree : d.words d.tree = rows := by
    subst hd
    exact words_take_piped _
  have hany : d.queue.any (fun p => d.words (d.planRows p) = d.words d.tree) =
      decide (stages = rows) := by
    have hqueue : d.queue.any (fun p => d.words (d.planRows p) = d.words d.tree) =
        (d.resolve d.queued).any (fun c => c.2 = rows) := by
      simp [resolve, queued, htree, Function.comp_def]
    rw [hqueue, hmet]
    by_cases hn : n ≤ 1
    · simp [hn]
    · simp [hn, hs]
  rw [closeSequence, hany]
  by_cases heq : stages = rows
  · rw [if_pos (decide_eq_true heq), if_pos heq, hmet]
    rfl
  · rw [if_neg (by simp [heq]), if_neg heq, resolve_sequence, hmet, htree]
    rfl

/-- The draft of a line up to what follows its first pipe. -/
theorem ofItems_firstPipe {t p : Tree} {before cs after : List Tree}
    (h : t.FirstPipe before p cs after)
    (hn : ∀ c ∈ t.calls, ∃ name rest, c.Named name rest)
    (hf : ∀ c ∈ t.calls, c.furtherNames = []) :
    ∃ sequences, (before.flatMap Tree.rows).length < sequences ∧
      ofItems t.items Draft.empty =
        join after (if before = [] then piped [] (cs.flatMap Tree.rows) sequences []
          else (piped (before.flatMap Tree.rows) (cs.flatMap Tree.rows) sequences
            (callsQueue before.length)).closeSequence) := by
  rw [h.calls] at hn hf
  have hbefore : ∀ c ∈ before, ∃ name rest, c.Named name rest := fun c hc => hn c (by simp [hc])
  have hstages : ∀ c ∈ cs, ∃ name rest, c.Named name rest := fun c hc => hn c (by simp [hc])
  have hitem := item_piped h.rule h.piped hstages fun c hc => hf c (by simp [hc])
  have hseveral := h.piped.several
  refine ⟨(before.flatMap Tree.rows ++ cs.flatMap Tree.rows).length + cs.length, ?_, ?_⟩
  · rw [List.length_append]
    omega
  · rw [h.items]
    by_cases hne : before = []
    · subst hne
      have hfirst : Draft.empty.item p = .ok (piped [] (cs.flatMap Tree.rows)
          ((cs.flatMap Tree.rows).length + cs.length) []) := hitem [] []
      rw [if_pos rfl, List.nil_append, ofItems, hfirst]
      rfl
    · rw [if_neg hne, ofItems_append hne, ofItems_calls hne h.single hbefore]
      change join (p :: after) (flat (before.flatMap Tree.rows) (before.flatMap Tree.rows).length
        (callsQueue before.length)) = _
      rw [join, hitem]
      rfl

end Draft

/-- The calls that a command runs, in their order. -/
def callsOf (c : Form × List (List Text)) : List (List Row) :=
  match c.1 with
  | .call => [textRows c.2]
  | .pipe => (Command.decode (textRows c.2)).calls
  | .sequence => (Command.decode (textRows c.2)).calls

/-- Commands that run the calls of a line once each and in its order, those of a pipe as one
pipe. -/
structure Faithful (commands : List (Form × List (List Text))) (t : Tree) : Prop where
  calls : commands.flatMap callsOf = t.calls.map Tree.callRows
  pipes : (commands.filter (fun c => c.1 = .pipe)).map callsOf =
    (t.items.filter (fun x => x.rule? = some .pipe)).map (fun p => p.calls.map Tree.callRows)

/-- One call and a pipe are run as they are written. -/
theorem faithful_call_pipe {t c p : Tree} {cs : List Tree} (hitems : t.items = [c, p])
    (hcalls : t.calls = c :: cs) (hc : c.rule? = some .call) (hr : p.rule? = some .pipe)
    (hp : p.Piped cs) (hn : ∀ x ∈ c :: cs, ∃ name rest, x.Named name rest) :
    Faithful [(.sequence, c.rows), (.pipe, cs.flatMap Tree.rows)] t := by
  have hone : (Command.decode (textRows c.rows)).calls = [c.callRows] := by
    have hdecode := Tree.decode_flatMap (List.cons_ne_nil c []) (by simpa using hn c (by simp))
    rw [List.flatMap_singleton] at hdecode
    rw [hdecode]
    rfl
  have hseveral := hp.several
  have hne : cs ≠ [] := List.ne_nil_of_length_pos (by omega)
  have hdecode := Tree.decode_flatMap hne fun x hx => hn x (by simp [hx])
  refine ⟨?_, ?_⟩
  · simp [callsOf, hone, hdecode, hcalls]
  · simp [callsOf, hdecode, hitems, hc, hr, hp.calls]

/-- After two or more calls a pipe is run once more, in a sequence with the calls. -/
theorem not_faithful_of_calls {t : Tree} {before cs : List Tree} (hcalls : t.calls = before ++ cs)
    (hne : cs ≠ []) (hn : ∀ x ∈ before ++ cs, ∃ name rest, x.Named name rest)
    (first : List (Form × List (List Text))) :
    ¬ Faithful (first ++ [(.pipe, cs.flatMap Tree.rows),
      (.sequence, before.flatMap Tree.rows ++ cs.flatMap Tree.rows)]) t := by
  intro h
  have hcount := congrArg List.length h.calls
  have hpipe := Tree.decode_flatMap hne fun x hx => hn x (by simp [hx])
  have hboth := Tree.decode_flatMap (List.append_ne_nil_of_right_ne_nil before hne) hn
  rw [List.flatMap_append] at hboth
  have hpos := List.length_pos_of_ne_nil hne
  simp [callsOf, hpipe, hboth, hcalls] at hcount
  omega

/-- A pipe does not have the words of a single call. -/
theorem flatMap_rows_ne_rows {cs : List Tree} {c : Tree} (hs : 2 ≤ cs.length)
    (hn : ∀ x ∈ c :: cs, ∃ name rest, x.Named name rest) : cs.flatMap Tree.rows ≠ c.rows := by
  intro heq
  have hne : cs ≠ [] := List.ne_nil_of_length_pos (by omega)
  have hmany := Tree.decode_flatMap hne fun x hx => hn x (by simp [hx])
  have hone := Tree.decode_flatMap (List.cons_ne_nil c []) (by simpa using hn c (by simp))
  rw [List.flatMap_singleton, ← heq, hmany] at hone
  have hcount := congrArg (fun d => d.calls.length) hone
  simp at hcount
  omega

section FirstPipe

variable {line : Text} {before cs after : List Tree} {p : Tree}

/-- With an item after its first pipe a line cannot be drafted. -/
theorem resolved_of_after (h : Clear line) (hp : (treeOf line).FirstPipe before p cs after)
    (ha : after ≠ []) (hn : ∀ c ∈ (treeOf line).calls, c.startsWithName = true)
    (hf : ∀ c ∈ (treeOf line).calls, c.furtherNames = []) (w : World) :
    (draftLine line w).resolved = .error .listIndex := by
  obtain ⟨htree, hplain⟩ := h.isCommand (by simp [hp.items])
  have hnamed := htree.exists_named hplain hn
  obtain ⟨sequences, hseq, hdraft⟩ := Draft.ofItems_firstPipe hp hnamed hf
  have hstages := hp.stages_ne_nil hnamed
  obtain ⟨x, xs, rfl⟩ := List.exists_cons_of_ne_nil ha
  have hx : x ∈ (treeOf line).items := by simp [hp.items]
  have herror : ∃ d, Draft.ofItems (treeOf line).items Draft.empty = .error d := by
    rw [hdraft]
    by_cases hne : before = []
    · subst hne
      rw [if_pos rfl]
      exact (Draft.spent_piped hstages hseq _).join htree hplain hn hx xs
    · rw [if_neg hne]
      exact (Draft.spent_piped hstages hseq _).closeSequence.join htree hplain hn hx xs
  obtain ⟨d, hd⟩ := herror
  rw [draftLine, h.draftWith_eq, hd]
  rfl

/-- With its only pipe at the end a line is drafted. -/
theorem resolved_of_last (h : Clear line) (hp : (treeOf line).FirstPipe before p cs [])
    (hne : before ≠ []) (hn : ∀ c ∈ (treeOf line).calls, c.startsWithName = true)
    (hf : ∀ c ∈ (treeOf line).calls, c.furtherNames = []) (w : World) :
    (draftLine line w).resolved = .ok
      ((if cs.flatMap Tree.rows = before.flatMap Tree.rows then []
          else [(.sequence, before.flatMap Tree.rows)]) ++
        (.pipe, cs.flatMap Tree.rows) ::
          (if before.length ≤ 1 then []
            else [(.sequence, before.flatMap Tree.rows ++ cs.flatMap Tree.rows)])) := by
  obtain ⟨htree, hplain⟩ := h.isCommand (by simp [hp.items])
  have hnamed := htree.exists_named hplain hn
  obtain ⟨sequences, -, hdraft⟩ := Draft.ofItems_firstPipe hp hnamed hf
  have hstages := hp.stages_ne_nil hnamed
  rw [if_neg hne, Draft.join] at hdraft
  have hrules : (treeOf line).items.map Tree.rule? ≠ [some .call] := by
    intro heq
    have hlength := congrArg List.length heq
    simp [hp.items] at hlength
    exact hne hlength
  rw [draftLine, h.draftWith_eq, hdraft, drafted, Drafted.resolved, htree.commands_eq,
    if_neg hrules, Except.map, Draft.resolve_piped hstages]

/-- A line that ends with its only pipe is run as it is written just if it is one call and the
pipe. -/
theorem faithful_of_last (h : Clear line) (hp : (treeOf line).FirstPipe before p cs [])
    (hne : before ≠ []) (hn : ∀ c ∈ (treeOf line).calls, c.startsWithName = true)
    (hf : ∀ c ∈ (treeOf line).calls, c.furtherNames = []) (w : World) :
    ∃ commands, (draftLine line w).resolved = .ok commands ∧
      (Faithful commands (treeOf line) ↔
        (treeOf line).items.map Tree.rule? = [some .call, some .pipe]) := by
  obtain ⟨htree, hplain⟩ := h.isCommand (by simp [hp.items])
  have hnamed := htree.exists_named hplain hn
  have hcalls : (treeOf line).calls = before ++ cs := by simpa using hp.calls
  have hseveral := hp.piped.several
  rw [hcalls] at hnamed
  refine ⟨_, resolved_of_last h hp hne hn hf w, ?_⟩
  obtain ⟨c, more, rfl⟩ := List.exists_cons_of_ne_nil hne
  cases more with
  | nil =>
      have hdiffer := flatMap_rows_ne_rows hseveral hnamed
      have hfaithful := faithful_call_pipe hp.items hcalls (hp.single c (by simp)) hp.rule hp.piped
        hnamed
      rw [List.flatMap_singleton, if_neg hdiffer]
      refine iff_of_true hfaithful ?_
      simp [hp.items, hp.single c (by simp), hp.rule]
  | cons c' more =>
      have hcs : cs ≠ [] := List.ne_nil_of_length_pos (by omega)
      rw [if_neg (by simp : ¬ (c :: c' :: more).length ≤ 1)]
      refine iff_of_false (not_faithful_of_calls hcalls hcs hnamed _) ?_
      simp [hp.items]

end FirstPipe

/-- A line of calls and pipes can be drafted just if no item follows a pipe, and it is run as it is
written just if it is one call and one pipe. -/
theorem mixed_drafted {line : Text} (h : Clear line) (hl : 2 ≤ (treeOf line).items.length)
    (hp : ∃ x ∈ (treeOf line).items, x.rule? = some .pipe)
    (hn : ∀ c ∈ (treeOf line).calls, c.startsWithName = true)
    (hf : ∀ c ∈ (treeOf line).calls, c.furtherNames = []) (w : World) :
    ((∃ commands, (draftLine line w).resolved = .ok commands ∧
        Faithful commands (treeOf line)) ↔
      (treeOf line).items.map Tree.rule? = [some .call, some .pipe]) ∧
    ((∃ commands, (draftLine line w).resolved = .ok commands) ↔
      ∀ x ∈ (treeOf line).items.dropLast, x.rule? = some .call) := by
  obtain ⟨htree, hplain⟩ := h.isCommand (List.ne_nil_of_length_pos (by omega))
  obtain ⟨before, p, cs, after, hfirst⟩ := htree.exists_firstPipe hplain hp
  by_cases ha : after = []
  · subst ha
    have hne : before ≠ [] := by
      intro hnil
      simp [hfirst.items, hnil] at hl
    obtain ⟨commands, hresolved, hiff⟩ := faithful_of_last h hfirst hne hn hf w
    refine ⟨?_, ?_⟩
    · simp [hresolved, hiff]
    · refine iff_of_true ⟨commands, hresolved⟩ ?_
      rw [hfirst.items, List.dropLast_concat]
      exact hfirst.single
  · have herror := resolved_of_after h hfirst ha hn hf w
    have hinner : ¬ ∀ x ∈ (treeOf line).items.dropLast, x.rule? = some .call := by
      intro hcalls
      have hmem : p ∈ (treeOf line).items.dropLast := by
        rw [hfirst.items, List.dropLast_append_of_ne_nil (by simp), List.dropLast_cons_of_ne_nil ha]
        simp
      have hrule := hcalls p hmem
      rw [hfirst.rule] at hrule
      cases hrule
    refine ⟨iff_of_false (by simp [herror]) ?_, iff_of_false (by simp [herror]) hinner⟩
    intro hrules
    apply hinner
    intro x hx
    have hmem : x.rule? ∈ (treeOf line).items.dropLast.map Tree.rule? := List.mem_map_of_mem hx
    rw [List.map_dropLast, hrules] at hmem
    exact List.mem_singleton.mp hmem

/-- One call and a pipe can be drafted; a call after a pipe cannot. -/
theorem mixed_drafted_call_after_pipe :
    Clear "echo a | cat ; echo b".toList ∧ Clear "echo b > f ; cat f | wc".toList ∧
      ¬ (∃ commands, (draftLine "echo a | cat ; echo b".toList World.bare).resolved =
        .ok commands) ∧
      ∃ commands, (draftLine "echo b > f ; cat f | wc".toList World.bare).resolved =
          .ok commands ∧
        Faithful commands (treeOf "echo b > f ; cat f | wc".toList) := by
  have hafter : Clear "echo a | cat ; echo b".toList := ⟨by decide +kernel, by decide +kernel⟩
  have hlast : Clear "echo b > f ; cat f | wc".toList := ⟨by decide +kernel, by decide +kernel⟩
  refine ⟨hafter, hlast, ?_, ?_⟩
  · rw [(mixed_drafted hafter (by decide +kernel) (by decide +kernel) (by decide +kernel)
      (by decide +kernel) World.bare).2]
    decide +kernel
  · rw [(mixed_drafted hlast (by decide +kernel) (by decide +kernel) (by decide +kernel)
      (by decide +kernel) World.bare).1]
    decide +kernel

end CommandShell
