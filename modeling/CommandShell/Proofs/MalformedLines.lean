import CommandShell.Proofs.MendedTrees

/-! # Lines with complaints

A line of which something is complained is run all the same. What is run are the items that have
been saved of it; where there is none, nothing is run and nothing fails. Only if a word finds no row
is such a line refused. -/

namespace CommandShell

open Drafting

variable {run : Text → List Value → World → Running}

namespace Tree

open Note

/-! ### Lines of items -/

section Lines

variable {lost : List Tree}

theorem walk_of_rule? {t : Tree} (h : t.rule? = none) : walk run t = pure () := by
  cases t with
  | node r kids => cases h
  | leaf | skipped | missing => rfl

theorem walkAll_lost (h : ∀ k ∈ lost, k.rule? = none) (more : List Tree) :
    walkAll run (lost ++ more) = walkAll run more := by
  induction lost with
  | nil => rfl
  | cons k ks ih =>
      rw [List.cons_append, walkAll_cons, walk_of_rule? (h k (by simp)), pure_bind,
        ih fun x hx => h x (by simp [hx])]

theorem outermostAll_lost (h : ∀ k ∈ lost, k.rule? = none) (rs : List Rule) (more : List Tree) :
    outermostAll rs (lost ++ more) = outermostAll rs more := by
  induction lost with
  | nil => rfl
  | cons k ks ih =>
      have hk : outermost rs k = [] := by
        have hrule := h k (by simp)
        cases k with
        | node r kids => cases hrule
        | leaf | skipped | missing => rfl
      rw [List.cons_append, outermostAll_cons, hk, List.nil_append,
        ih fun x hx => h x (by simp [hx])]

theorem outermost_segment (h : ∀ k ∈ lost, k.rule? = none) {rs : List Rule} (hr : .command ∉ rs)
    (more : List Tree) : outermost rs (.node .command (lost ++ more)) = outermostAll rs more := by
  rw [outermost_node, if_neg hr, outermostAll_lost h]

theorem items_segment (h : ∀ k ∈ lost, k.rule? = none) {x : Tree} (hx : x.items = [x]) :
    items (.node .command (lost ++ [x])) = [x] := by
  rw [items, outermost_segment h (by decide), outermostAll_cons, ← items, hx]
  rfl

theorem calls_segment (h : ∀ k ∈ lost, k.rule? = none) (x : Tree) :
    calls (.node .command (lost ++ [x])) = x.calls := by
  rw [calls, outermost_segment h (by decide), outermostAll_cons]
  exact List.append_nil _

theorem outermost_lost (h : ∀ k ∈ lost, k.rule? = none) {rs : List Rule} (hr : .command ∉ rs) :
    outermost rs (.node .command lost) = [] := by
  rw [← List.append_nil lost, outermost_segment h hr]
  rfl

theorem items_lost (h : ∀ k ∈ lost, k.rule? = none) : items (.node .command lost) = [] :=
  outermost_lost h (by decide)

theorem calls_lost (h : ∀ k ∈ lost, k.rule? = none) : calls (.node .command lost) = [] :=
  outermost_lost h (by decide)

theorem any_rule_lost (h : ∀ k ∈ lost, k.rule? = none) (r : Rule) :
    lost.any (fun k => k.rule? = some r) = false := by
  simpa using fun k hk hr => by simp [h k hk] at hr

theorem any_lost (h : ∀ k ∈ lost, k.rule? = none) (r : Rule) (more : List Tree) :
    (lost ++ more).any (fun k => k.rule? = some r) = more.any (fun k => k.rule? = some r) := by
  rw [List.any_append, any_rule_lost h, Bool.false_or]

/-- Tokens that were passed over do nothing. -/
theorem walk_lost (h : ∀ k ∈ lost, k.rule? = none) :
    walk run (.node .command lost) = pure () := by
  have hwalk : walkAll run lost = pure () := by
    rw [← List.append_nil lost, walkAll_lost h, walkAll_nil]
  rw [walk_command, any_rule_lost h, any_rule_lost h, hwalk]
  rfl

theorem walk_segment_call (hk : ∀ k ∈ lost, k.rule? = none) {x : Tree} (hr : x.rule? = some .call) :
    walk run (.node .command (lost ++ [x])) = walk run x := by
  rw [walk_command, any_lost hk, any_lost hk, walkAll_lost hk]
  simp [hr]

theorem ItemWalk.walk_segment {c x : Tree} {ns : List Note} (h : ItemWalk run c x ns)
    (hl : ∀ k ∈ lost, k.rule? = none) (d : Draft) (w : World) :
    walk run (.node .command (lost ++ [x])) ⟨d, w⟩ =
      Draft.outcome w (d.itemWith (x.rule? = some .pipe) ns) := by
  rcases h.led.rule?_eq h.isCall with hr | ⟨hr, -⟩
  · have hwalk : walkAll run (lost ++ [x]) = perform ns := by
      rw [walkAll_lost hl, walkAll_cons, h.walked.1, walkAll_nil]
      exact bind_pure_unit
    have hrun : walk run (.node .command (lost ++ [x])) = (do
        let c ← get
        update (·.expectRow)
        perform ns
        update (·.closePipe c.draft.tree.length)) := by
      rw [walk_command, any_lost hl, any_lost hl, hwalk]
      simp [hr]
    rw [hrun, Draft.itemWith, if_pos (by simp [hr])]
    change (perform ns >>= fun _ => update (·.closePipe d.tree.length)) ⟨d.expectRow, w⟩ = _
    simp only [bind, EStateM.bind, perform_eq]
    cases Draft.follow ns d.expectRow with
    | ok d' => rfl
    | error d' => rfl
  · rw [walk_segment_call hl hr, h.walked.1, Draft.itemWith, if_neg (by simp [hr])]
    exact perform_eq ns d w

/-- A pipe that opens rows takes them with it, and leaves no row for what follows. -/
def blocks (x : Tree) : Bool := x.rule? = some .pipe && x.notes.any opens

/-- A word of the line finds no row: the first call does not start with a name or a redirection, or
something follows a pipe that has opened rows. -/
def refused (t : Tree) : Bool :=
  t.calls.head?.any startsUnsupported || t.items.dropLast.any blocks

/-- Has the line been divided at a `;`? -/
def joined (t : Tree) : Bool := t.kids.any (fun k => k.rule? = some .command)

/-- The draft of a line that is not refused. -/
structure Rests (t : Tree) (d : Draft) : Prop where
  stranded : t.items.getLast?.any blocks = true → d.Stranded
  ready : t.items.getLast?.any blocks = false → d.Ready
  commands : Drafting.commands t d ≠ []

variable {ts : List Token} {t a s b : Tree}

theorem commands_joined (h : t.joined = true) (d : Draft) : commands t d = d.queued := by
  have hor : (t.joined || t.kids.any (fun k => k.rule? = some .pipe)) = true := by
    rw [h, Bool.true_or]
  exact if_pos hor

theorem calls_join (hs : IsLeaf [.semicolon] s) :
    calls (.node .command [a, s, b]) = a.calls ++ b.calls := by
  obtain ⟨hs⟩ := hs
  simp [calls, outermost_node]

theorem Segment.rule?_eq (h : Segment ts b) : b.rule? = some .command := by cases h <;> rfl

theorem joined_node (hb : b.rule? = some .command) : joined (.node .command [a, s, b]) = true := by
  simp [joined, kids, hb]

theorem any_blocks (xs : List Tree) :
    xs.any blocks = (xs.dropLast.any blocks || xs.getLast?.any blocks) := by
  rcases List.eq_nil_or_concat xs with rfl | ⟨ys, y, rfl⟩
  · rfl
  · simp

theorem Salvaged.items_ne_nil (h : Salvaged ts t) : t.items ≠ [] := by
  induction h with
  | @item lost x hl hx =>
      rw [items_segment hl hx.items_eq]
      exact List.cons_ne_nil _ _
  | join _ hs _ ih =>
      rw [items_join hs]
      exact List.append_ne_nil_of_left_ne_nil ih _

theorem Salvaged.calls_ne_nil (h : Salvaged ts t) : t.calls ≠ [] := by
  induction h with
  | @item lost x hl hx =>
      obtain ⟨c, hc, -, hled⟩ := hx
      obtain ⟨more, hcalls⟩ := hled.calls_eq hc
      rw [calls_segment hl, hcalls]
      exact List.cons_ne_nil _ _
  | join _ hs _ ih =>
      rw [calls_join hs]
      exact List.append_ne_nil_of_left_ne_nil ih _

/-- A line with one item is refused if its first call opens no row. -/
theorem ItemWalk.first {c x : Tree} {ns : List Note} (h : ItemWalk run c x ns)
    (hl : ∀ k ∈ lost, k.rule? = none) (w : World) :
    (refused (.node .command (lost ++ [x])) = true →
      ∃ d, walk run (.node .command (lost ++ [x])) ⟨Draft.empty, w⟩ = .error .listIndex ⟨d, w⟩) ∧
    (refused (.node .command (lost ++ [x])) = false →
      ∃ d, walk run (.node .command (lost ++ [x])) ⟨Draft.empty, w⟩ = .ok () ⟨d, w⟩ ∧
        Rests (.node .command (lost ++ [x])) d) := by
  obtain ⟨more, hcalls⟩ := h.led.calls_eq h.isCall
  have hitems := items_segment hl (h.led.items_eq h.isCall)
  have hrefused : refused (.node .command (lost ++ [x])) = c.startsUnsupported := by
    rw [refused, hitems, calls_segment hl, hcalls]
    simp
  have hblocks : (items (.node .command (lost ++ [x]))).getLast?.any blocks =
      (decide (x.rule? = some .pipe) && ns.any opens) := by
    rw [hitems, h.any_opens]
    rfl
  obtain ⟨n, hn, hopens⟩ := h.find_decides
  obtain ⟨ns', rfl⟩ := h.exists_cons
  obtain ⟨hgood, hbad⟩ := Draft.itemWith_empty (x.rule? = some .pipe) hn
  rw [hrefused, h.walk_segment hl]
  rw [hopens] at hgood hbad
  constructor
  · intro hs
    obtain ⟨d, hd⟩ := hbad (by rw [hs]; rfl)
    exact ⟨d, by rw [hd]; rfl⟩
  · intro hs
    obtain ⟨d, hd, hafter⟩ := hgood (by rw [hs]; rfl)
    refine ⟨d, by rw [hd]; rfl, ?_, ?_, ?_⟩
    · rw [hblocks]
      exact hafter.stranded
    · rw [hblocks]
      exact hafter.ready
    · rcases h.led.rule?_eq h.isCall with hr | ⟨hr, -⟩
      · have hqueue := hafter.queue (by simp [hr])
        have hcommands : commands (.node .command (lost ++ [x])) d = d.queued := by
          simp [commands, kids, any_lost hl, hr]
        rw [hcommands, Draft.queued]
        simpa using hqueue
      · have hcommands : commands (.node .command (lost ++ [x])) d = d.single := by
          simp [commands, kids, any_lost hl, hr]
        rw [hcommands]
        exact List.cons_ne_nil _ _

/-- A `;` with nothing after it. -/
theorem Rests.closeSequence {d : Draft} (h : Rests a d) (hs : IsLeaf [.semicolon] s)
    (hk : ∀ k ∈ lost, k.rule? = none) :
    Rests (.node .command [a, s, .node .command lost]) d.closeSequence := by
  have hitems : items (.node .command [a, s, .node .command lost]) = a.items := by
    rw [items_join hs, items_lost hk, List.append_nil]
  refine ⟨?_, ?_, ?_⟩
  · rw [hitems]
    exact fun hlast => (h.stranded hlast).closeSequence
  · rw [hitems]
    exact fun hlast => (h.ready hlast).closeSequence
  · rw [commands_joined (joined_node rfl), Draft.queued]
    simpa using d.closeSequence_queue_ne_nil

/-- A `;` with an item after it. -/
theorem Rests.item {c x : Tree} {ns : List Note} {d : Draft} (h : Rests a d)
    (hx : ItemWalk run c x ns) (hs : IsLeaf [.semicolon] s) (hk : ∀ k ∈ lost, k.rule? = none) :
    (a.items.getLast?.any blocks = true →
      ∃ d', d.itemWith (x.rule? = some .pipe) ns = .error d') ∧
    (a.items.getLast?.any blocks = false →
      ∃ d', d.itemWith (x.rule? = some .pipe) ns = .ok d' ∧
        Rests (.node .command [a, s, .node .command (lost ++ [x])]) d'.closeSequence) := by
  refine ⟨fun hlast => (h.stranded hlast).itemWith _ hx.any_isWord, fun hlast => ?_⟩
  obtain ⟨d', hd', hafter⟩ := (h.ready hlast).itemWith (x.rule? = some .pipe) ns
  have hitems : (items (.node .command [a, s, .node .command (lost ++ [x])])).getLast?.any blocks =
      (decide (x.rule? = some .pipe) && ns.any opens) := by
    rw [items_join hs, items_segment hk (hx.led.items_eq hx.isCall), List.getLast?_concat,
      hx.any_opens]
    rfl
  refine ⟨d', hd', ?_, ?_, ?_⟩
  · rw [hitems]
    exact fun hblocks => (hafter.stranded hblocks).closeSequence
  · rw [hitems]
    exact fun hfree => (hafter.ready hfree).closeSequence
  · rw [commands_joined (joined_node rfl), Draft.queued]
    simpa using d'.closeSequence_queue_ne_nil

theorem refused_lost (hs : IsLeaf [.semicolon] s) (hk : ∀ k ∈ lost, k.rule? = none) :
    refused (.node .command [a, s, .node .command lost]) = a.refused := by
  rw [refused, refused, items_join hs, calls_join hs, items_lost hk, calls_lost hk, List.append_nil,
    List.append_nil]

theorem refused_item {x : Tree} (ha : a.calls ≠ []) (hs : IsLeaf [.semicolon] s)
    (hk : ∀ k ∈ lost, k.rule? = none) (hx : x.items = [x]) :
    refused (.node .command [a, s, .node .command (lost ++ [x])]) =
      (a.refused || a.items.getLast?.any blocks) := by
  rw [refused, refused, items_join hs, calls_join hs, items_segment hk hx, List.dropLast_concat,
    any_blocks, List.head?_append_of_ne_nil _ ha, Bool.or_assoc]

/-- How the drafting of a line ends of which something has been saved. -/
theorem Salvaged.walk_cases (run : Text → List Value → World → Running) (h : Salvaged ts t)
    (hl : Token.Lexed ts) (hb : ∀ u ∈ ts, u.kind ≠ .backMark) (hu : t.Unmarked) (hs : t.Signed)
    (w : World) :
    (t.refused = true → ∃ d, walk run t ⟨Draft.empty, w⟩ = .error .listIndex ⟨d, w⟩) ∧
      (t.refused = false →
        ∃ d, walk run t ⟨Draft.empty, w⟩ = .ok () ⟨d, w⟩ ∧ Rests t d) := by
  induction h with
  | @item lost x hk hx =>
      obtain ⟨c, ns, hitem⟩ := hx.exists_itemWalk hl hb (hu.kid (by simp)) (hs.kid (by simp))
      exact hitem.first hk w
  | @join a s b ha hsemi hsegment ih =>
      obtain ⟨hbad, hgood⟩ := ih (hu.kid (by simp)) (hs.kid (by simp))
      rw [walk_joined hsemi hsegment.rule?_eq]
      simp only [bind, EStateM.bind]
      cases hsegment with
      | @lost kids hk =>
          rw [refused_lost hsemi hk]
          constructor
          · intro hr
            obtain ⟨d, hd⟩ := hbad hr
            exact ⟨d, by rw [hd]⟩
          · intro hr
            obtain ⟨d, hd, hrests⟩ := hgood hr
            refine ⟨d.closeSequence, ?_, hrests.closeSequence hsemi hk⟩
            rw [hd, walk_lost hk]
            rfl
      | @item lost x hk hx =>
          have hub : Unmarked (.node .command (lost ++ [x])) := hu.kid (by simp)
          have hsb : Signed (.node .command (lost ++ [x])) := hs.kid (by simp)
          obtain ⟨c, ns, hitem⟩ : ∃ c ns, ItemWalk run c x ns :=
            hx.exists_itemWalk hl hb (hub.kid (by simp)) (hsb.kid (by simp))
          rw [refused_item ha.calls_ne_nil hsemi hk (hitem.led.items_eq hitem.isCall)]
          cases hr : a.refused with
          | true =>
              obtain ⟨d, hd⟩ := hbad hr
              exact ⟨fun _ => ⟨d, by rw [hd]⟩, fun hnot => by cases hnot⟩
          | false =>
              obtain ⟨d, hd, hrests⟩ := hgood hr
              obtain ⟨hstranded, hready⟩ := hrests.item hitem hsemi hk
              rw [Bool.false_or, hd]
              simp only [hitem.walk_segment hk]
              constructor
              · intro hlast
                obtain ⟨d', hd'⟩ := hstranded hlast
                exact ⟨d', by rw [hd']; rfl⟩
              · intro hlast
                obtain ⟨d', hd', hnext⟩ := hready hlast
                exact ⟨d'.closeSequence, by rw [hd']; rfl, hnext⟩

/-- The items of a line start with whole calls of it. -/
theorem Salvaged.opened (h : Salvaged ts t) : ∀ x ∈ t.items, Opened ts x := by
  induction h with
  | @item lost x hk hx =>
      rw [items_segment hk hx.items_eq]
      simpa using hx
  | @join a s b _ hs hb ih =>
      rw [items_join hs]
      refine List.forall_mem_append.mpr ⟨ih, ?_⟩
      cases hb with
      | lost hk => simp [items_lost hk]
      | item hk hx =>
          rw [items_segment hk hx.items_eq]
          simpa using hx

/-! ### Lines of calls -/

theorem joined_segment (hk : ∀ k ∈ lost, k.rule? = none) {x : Tree} (hx : x.rule? = some .call) :
    joined (.node .command (lost ++ [x])) = false := by
  rw [joined, kids, any_lost hk]
  simp [hx]

theorem IsCall.walk_segment {c : Tree} (hc : IsCall c) (hp : Plain c)
    (hk : ∀ k ∈ lost, k.rule? = none) (d : Draft) (w : World) :
    walk run (.node .command (lost ++ [c])) ⟨d, w⟩ = Draft.outcome w (d.follow c.notes) := by
  have hitem : ItemWalk run c c c.notes := ⟨hc, hp, .call, hc.walk_eq hp, rfl⟩
  rw [hitem.walk_segment hk, Draft.itemWith, if_neg (by simp [hc.rule?_eq])]

theorem Salvaged.commands_calls (h : Salvaged ts t) (hc : ∀ x ∈ t.items, x.rule? = some .call)
    (d : Draft) : commands t d = if t.joined then d.queued else d.single := by
  cases h with
  | @item lost x hk hx =>
      have hr : x.rule? = some .call := hc x (by simp [items_segment hk hx.items_eq])
      rw [joined_segment hk hr]
      simp [commands, kids, any_lost hk, hr]
  | join _ _ hb =>
      rw [commands_joined (joined_node hb.rule?_eq), if_pos (joined_node hb.rule?_eq)]

/-- The rows of a line, and how many more are expected. -/
def collected (t : Tree) : Nat × List (List Text) := collect 0 [] (t.items.flatMap notes)

/-- The draft of a line of calls. -/
def callsDraft (t : Tree) : Draft :=
  .flat t.collected.2 (t.collected.2.length + t.collected.1)
    (Draft.callsQueue (if t.joined then 2 else 1))

/-- Lines of calls are drafted as if nothing had been wrong with them. -/
theorem Salvaged.walk_calls (h : Salvaged ts t) (hl : Token.Lexed ts)
    (hb : ∀ u ∈ ts, u.kind ≠ .backMark) (hc : ∀ x ∈ t.items, x.rule? = some .call)
    (hf : t.calls.head?.any startsUnsupported = false) (w : World) :
    walk run t ⟨Draft.empty, w⟩ = .ok () ⟨t.callsDraft, w⟩ ∧ t.collected.2 ≠ [] := by
  induction h with
  | @item lost x hk hx =>
      have hitems := items_segment hk hx.items_eq
      have hr : x.rule? = some .call := hc x (by simp [hitems])
      obtain ⟨hcall, htokens⟩ := hx.isCall hr
      have hplain := plain_of_stretch hl hb htokens
      have hs : x.startsUnsupported = false := by
        simpa [calls_segment hk, hcall.calls_eq] using hf
      obtain ⟨hfirst, hrows⟩ := Draft.item_first hr (hcall.start hplain) hs
      have hcollected : collected (.node .command (lost ++ [x])) = collect 0 [] x.notes := by
        simp [collected, hitems]
      rw [Draft.item_call hr] at hfirst
      rw [hcall.walk_segment hplain hk, hfirst, callsDraft, joined_segment hk hr, hcollected]
      exact ⟨rfl, hrows⟩
  | @join a s b ha hs hsegment ih =>
      rw [items_join hs] at hc
      rw [calls_join hs, List.head?_append_of_ne_nil _ ha.calls_ne_nil] at hf
      obtain ⟨hwalk, hrows⟩ := ih (fun x hx => hc x (List.mem_append_left _ hx)) hf
      have hjoined : joined (.node .command [a, s, b]) = true := joined_node hsegment.rule?_eq
      rw [walk_joined hs hsegment.rule?_eq, callsDraft, hjoined]
      simp only [bind, EStateM.bind, hwalk]
      cases hsegment with
      | @lost kids hk =>
          have hcollected : collected (.node .command [a, s, .node .command kids]) =
              a.collected := by
            rw [collected, items_join hs, items_lost hk, List.append_nil, collected]
          rw [walk_lost hk, hcollected]
          refine ⟨?_, hrows⟩
          change EStateM.Result.ok () (⟨a.callsDraft.closeSequence, w⟩ : DraftState) = _
          rw [callsDraft, Draft.closeSequence_flat]
          rfl
      | @item lost x hk hx =>
          have hitems := items_segment hk hx.items_eq
          obtain ⟨hcall, htokens⟩ := hx.isCall (hc x (by simp [hitems]))
          have hcollected : collected (.node .command [a, s, .node .command (lost ++ [x])]) =
              collect a.collected.1 a.collected.2 x.notes := by
            rw [collected, items_join hs, hitems, List.flatMap_append, collect_append]
            simp [collected]
          rw [hcall.walk_segment (plain_of_stretch hl hb htokens) hk, hcollected, callsDraft,
            Draft.follow_flat hrows]
          refine ⟨?_, collect_ne_nil hrows _ _⟩
          change EStateM.Result.ok () (⟨Draft.closeSequence _, w⟩ : DraftState) = _
          rw [Draft.closeSequence_flat]
          rfl

theorem Salvaged.resolve_callsDraft (h : Salvaged ts t)
    (hc : ∀ x ∈ t.items, x.rule? = some .call) :
    t.callsDraft.resolve (commands t t.callsDraft) =
      [(if t.joined then .sequence else .call, t.collected.2)] := by
  rw [h.commands_calls hc, callsDraft]
  cases t.joined with
  | true => exact Draft.resolve_queued_flat
  | false => exact Draft.resolve_single_flat _

end Lines

end Tree

/-! ### What becomes of the line -/

/-- What is printed of a line before it is run. -/
def reportOf (line : Text) : Text :=
  (Parse.read .command line).complaints.flatMap Complaint.report

theorem report_ne_nil (c : Complaint) : c.report ≠ [] :=
  List.append_ne_nil_of_right_ne_nil _ (by decide)

theorem flatMap_report_ne_nil {cs : List Complaint} (h : cs ≠ []) :
    cs.flatMap Complaint.report ≠ [] := by
  obtain ⟨c, cs, rfl⟩ := List.exists_cons_of_ne_nil h
  rw [List.flatMap_cons]
  exact List.append_ne_nil_of_left_ne_nil (report_ne_nil c) _

section Drafts

variable {line : Text} {w : World}

theorem draftWith_of_walk_error {d : Draft}
    (h : walk run (treeOf line) ⟨Draft.empty, w.warn (reportOf line)⟩ =
      .error .listIndex ⟨d, w.warn (reportOf line)⟩) :
    draftWith run line w = ⟨d, .error .listIndex, w.warn (reportOf line)⟩ := by
  rw [treeOf, reportOf] at h
  simp only [draftWith, h, reportOf]

theorem draftWith_of_walk_ok {d : Draft}
    (h : walk run (treeOf line) ⟨Draft.empty, w.warn (reportOf line)⟩ =
      .ok () ⟨d, w.warn (reportOf line)⟩) :
    draftWith run line w = ⟨d, .ok (commands (treeOf line) d), w.warn (reportOf line)⟩ := by
  rw [treeOf, reportOf] at h
  simp only [draftWith, h, treeOf, reportOf]

/-- Of a line that does not start with a call nothing is run. -/
theorem runLine_lost {kids : List Tree} (ht : treeOf line = .node .command kids)
    (hk : ∀ k ∈ kids, k.rule? = none) (out : List Value) :
    runLine line out w = (out, w.warn (reportOf line), none) := by
  have hwalk : walk runPlain (treeOf line) ⟨Draft.empty, w.warn (reportOf line)⟩ =
      .ok () ⟨Draft.empty, w.warn (reportOf line)⟩ := by
    rw [ht, Tree.walk_lost hk]
    rfl
  have hqueued : commands (treeOf line) Draft.empty = [] := by
    rw [ht]
    simp only [commands, Tree.kids, Tree.any_rule_lost hk]
    rfl
  rw [runLine, runWith, draftWith_of_walk_ok hwalk, hqueued]
  rfl

end Drafts

section Saved

open Parse

/-- A line of which something is complained is not refused for it. If it does not start with a whole
call, nothing is run and nothing fails. If it does, its items are pipes and calls that start with
whole calls of the line; and without back quotes, either a word finds no row and the line is refused
as it stands, or its commands are run. A line of calls is then run with the rows of its notes. -/
theorem complained_line_runs_what_is_saved {line : Text}
    (h : (read .command line).complaints ≠ []) (out : List Value) (w : World) :
    reportOf line ≠ [] ∧
      (¬StartsWithCall (kindsOf (opening (Token.scan line))) →
        runLine line out w = (out, w.warn (reportOf line), none)) ∧
      (StartsWithCall (kindsOf (opening (Token.scan line))) → Text.backQuote ∉ line →
        ((treeOf line).items ≠ [] ∧ ∀ x ∈ (treeOf line).items, Tree.Opened (Token.scan line) x) ∧
        ((treeOf line).refused = true →
          runLine line out w = (out, w.warn (reportOf line), some .notParsed)) ∧
        ((treeOf line).refused = false →
          (∃ cs, cs ≠ [] ∧ (draftLine line w).commands = .ok cs ∧
            runLine line out w =
              ((draftLine line w).draft.script cs).run out (w.warn (reportOf line))) ∧
          ((∀ x ∈ (treeOf line).items, x.rule? = some .call) →
            (draftLine line w).resolved =
              .ok [(if (treeOf line).joined then .sequence else .call,
                (collect 0 [] ((treeOf line).items.flatMap Tree.notes)).2)]))) := by
  obtain ⟨hsaved, hlost⟩ := read_salvages line
  refine ⟨flatMap_report_ne_nil h, fun hno => ?_, fun hcall hback => ?_⟩
  · obtain ⟨kids, htree, hkids⟩ := hlost hno
    exact runLine_lost htree hkids out
  · have hsalvaged : Tree.Salvaged (Token.scan line) (treeOf line) := hsaved hcall
    have hlexed := Token.lexed_scan line
    have hmarks : ∀ t ∈ Token.scan line, t.kind ≠ .backMark :=
      fun t ht => Token.kind_ne_backMark hback ht
    obtain ⟨hbad, hgood⟩ := hsalvaged.walk_cases runPlain hlexed hmarks
      (unmarked_read hback (by decide)) (signed_read line) (w.warn (reportOf line))
    refine ⟨⟨hsalvaged.items_ne_nil, hsalvaged.opened⟩, fun hr => ?_, fun hr => ⟨?_, fun hc => ?_⟩⟩
    · obtain ⟨d, hd⟩ := hbad hr
      rw [runLine, runWith, draftWith_of_walk_error hd]
      rfl
    · obtain ⟨d, hd, hrests⟩ := hgood hr
      refine ⟨_, hrests.commands, ?_, ?_⟩
      · rw [draftLine, draftWith_of_walk_ok hd]
      · rw [runLine, runWith, draftLine, draftWith_of_walk_ok hd]
    · obtain ⟨hfirst, -⟩ := Bool.or_eq_false_iff.mp hr
      obtain ⟨hwalk, -⟩ := hsalvaged.walk_calls hlexed hmarks hc hfirst (w.warn (reportOf line))
      rw [draftLine, draftWith_of_walk_ok hwalk, Drafted.resolved]
      exact congrArg Except.ok (hsalvaged.resolve_callsDraft hc)

/-- A quote that is not closed does nothing, a program that is no application is refused, and a
folder is made although nothing follows the `;`. -/
theorem complained_line_runs_what_is_saved_mkdir :
    (∀ out w, runLine "'".toList out w =
        (out, w.warn "line 1:1 no viable alternative at input '''\n".toList, none)) ∧
      (∀ out w, runLine "foo;".toList out w =
        (out, w.warn (reportOf "foo;".toList), some .notParsed)) ∧
      (read .command "mkdir x;".toList).complaints ≠ [] ∧
      (draftLine "mkdir x;".toList World.bare).resolved =
        .ok [(.sequence, [["mkdir".toList, "x".toList]])] ∧
      ((runLine "mkdir x;".toList [] World.bare).2.1.root.get? [['x']]).isSome = true ∧
      (runLine "mkdir x;".toList [] World.bare).2.2 = none := by
  have hquote : (read .command "'".toList).complaints ≠ [] := by decide +kernel
  have hfoo : (read .command "foo;".toList).complaints ≠ [] := by decide +kernel
  have hmkdir : (read .command "mkdir x;".toList).complaints ≠ [] := by decide +kernel
  refine ⟨fun out w => ?_, fun out w => ?_, hmkdir, ?_, by decide +kernel, by decide +kernel⟩
  · exact (complained_line_runs_what_is_saved hquote out w).2.1 (by decide +kernel)
  · obtain ⟨-, hrefused, -⟩ := (complained_line_runs_what_is_saved hfoo out w).2.2
      (by decide +kernel) (by decide +kernel)
    exact hrefused (by decide +kernel)
  · obtain ⟨-, -, hrun⟩ := (complained_line_runs_what_is_saved hmkdir [] World.bare).2.2
      (by decide +kernel) (by decide +kernel)
    exact ((hrun (by decide +kernel)).2 (by decide +kernel)).trans (by decide +kernel)

end Saved

end CommandShell
