import CommandShell.Proofs.Deeds
import CommandShell.Proofs.Reading

/-! # Drafts of lines without back quotes

Where there are no back quotes nothing is run while a line is drafted. The walk over a tree then
only follows the notes of the tree, and the draft that it makes is a function of the tree. -/

namespace CommandShell

namespace Drafting

variable {run : Text → List Value → World → Running}

theorem walkAll_eq_perform {kids : List Tree} (h : ∀ x ∈ kids, walk run x = perform x.notes) :
    walkAll run kids = perform (Tree.notesAll kids) := by
  induction kids with
  | nil => simp [perform]
  | cons x xs ih =>
      rw [walkAll_cons, Tree.notesAll_cons, perform_append, h x (by simp),
        ih fun y hy => h y (by simp [hy])]

end Drafting

namespace Tree

open Drafting

variable {run : Text → List Value → World → Running}

theorem IsLeaf.walk_eq {ks : List Kind} {x : Tree} (h : IsLeaf ks x) :
    walk run x = perform x.notes := by
  obtain ⟨hk⟩ := h
  simp [perform]

theorem IsCall.walk_eq {c : Tree} (h : IsCall c) (hp : Plain c) :
    walk run c = perform c.notes := by
  rw [h.walk_deeds hp.scanned, h.deeds_eq hp, carryOutAll_notes]

theorem pipe_walk_eq {a s b : Tree} {ks : List Kind} (ha : walk run a = perform a.notes)
    (hs : IsLeaf ks s) (hb : IsCall b) (hpb : Plain b) :
    walk run (.node .pipe [a, s, b]) = perform (notes (.node .pipe [a, s, b])) := by
  rw [walk_pipe, notes_pipe, perform, performNote]
  rw [walkAll_eq_perform]
  intro x hx
  simp only [List.mem_cons, List.not_mem_nil, or_false] at hx
  rcases hx with rfl | rfl | rfl
  · exact ha
  · exact hs.walk_eq
  · exact hb.walk_eq hpb

theorem IsPipe.walk_eq {p : Tree} (h : IsPipe p) (hp : Plain p) :
    walk run p = perform p.notes := by
  induction h with
  | two ha hs hb =>
      exact pipe_walk_eq (ha.walk_eq (hp.kid (by simp))) hs hb (hp.kid (by simp))
  | more _ hs hb ih =>
      exact pipe_walk_eq (ih (hp.kid (by simp))) hs hb (hp.kid (by simp))

end Tree

namespace Draft

/-- Follow one note. A word for which there is no row ends the drafting there. -/
def note (d : Draft) : Note → Except Draft Draft
  | .expected => .ok d.expectRow
  | .redirection sign => .ok (d.expectRow.openRow [sign])
  | .argument t =>
      .ok (if Application.isName t && d.tree.length ≠ d.sequences then d.openRow [] else d)
  | .word t =>
      match d.addWord? t with
      | some d' => .ok d'
      | none => .error d

def follow : List Note → Draft → Except Draft Draft
  | [], d => .ok d
  | n :: notes, d => do follow notes (← d.note n)

/-- The draft after a pipe or a call. -/
def item (x : Tree) (d : Draft) : Except Draft Draft :=
  if x.rule? = some .pipe then do
    let d' ← follow x.notes d.expectRow
    return d'.closePipe d.tree.length
  else follow x.notes d

/-- The draft after further items, each of which makes a sequence with those before it. -/
def join : List Tree → Draft → Except Draft Draft
  | [], d => .ok d
  | x :: xs, d => do join xs (← d.item x).closeSequence

/-- The draft after the items of a line. -/
def ofItems : List Tree → Draft → Except Draft Draft
  | [], d => .ok d
  | x :: xs, d => do join xs (← d.item x)

/-- The end of a sequence changes nothing but the commands met. -/
theorem exists_closeSequence (d : Draft) : ∃ queue, d.closeSequence = { d with queue := queue } := by
  unfold closeSequence
  split
  · exact ⟨d.queue, rfl⟩
  · exact ⟨_, rfl⟩

theorem follow_append (xs ys : List Note) (d : Draft) :
    follow (xs ++ ys) d = follow xs d >>= follow ys := by
  induction xs generalizing d with
  | nil => rfl
  | cons n xs ih => simp only [List.cons_append, follow, ih, bind_assoc]

theorem join_append (xs ys : List Tree) (d : Draft) :
    join (xs ++ ys) d = join xs d >>= join ys := by
  induction xs generalizing d with
  | nil => rfl
  | cons x xs ih => simp only [List.cons_append, join, ih, bind_assoc]

theorem ofItems_append {xs : List Tree} (h : xs ≠ []) (ys : List Tree) (d : Draft) :
    ofItems (xs ++ ys) d = ofItems xs d >>= join ys := by
  cases xs with
  | nil => exact absurd rfl h
  | cons x xs => simp only [List.cons_append, ofItems, join_append, bind_assoc]

theorem ofItems_singleton (x : Tree) (d : Draft) : ofItems [x] d = d.item x := by
  simp only [ofItems, join]
  cases d.item x <;> rfl

/-- A draft, or the draft at which a word found no row, as the outcome of drafting. -/
def outcome (w : World) : Except Draft Draft → EStateM.Result Fault DraftState Unit
  | .ok d => .ok () ⟨d, w⟩
  | .error d => .error .listIndex ⟨d, w⟩

end Draft

namespace Drafting

theorem get_bind {α : Type} (f : DraftState → Drafting α) (c : DraftState) :
    (get >>= f) c = f c c := rfl

theorem performNote_eq (n : Note) (d : Draft) (w : World) :
    performNote n ⟨d, w⟩ = Draft.outcome w (d.note n) := by
  cases n with
  | expected => rfl
  | redirection sign => rfl
  | argument t =>
      change startRow t ⟨d, w⟩ = _
      by_cases h : (Application.isName t && d.tree.length ≠ d.sequences) = true
      · rw [Draft.note, if_pos h]
        rw [startRow, get_bind]
        rw [if_pos h]
        rfl
      · rw [Draft.note, if_neg h]
        rw [startRow, get_bind]
        rw [if_neg h]
        rfl
  | word t =>
      change addWord t ⟨d, w⟩ = _
      rw [addWord, get_bind, Draft.note]
      cases d.addWord? t with
      | some d' => rfl
      | none => rfl

theorem perform_eq (notes : List Note) (d : Draft) (w : World) :
    perform notes ⟨d, w⟩ = Draft.outcome w (d.follow notes) := by
  induction notes generalizing d with
  | nil => rfl
  | cons n notes ih =>
      simp only [perform, Draft.follow, bind, EStateM.bind, performNote_eq]
      cases d.note n with
      | ok d' => exact ih d'
      | error d' => rfl

end Drafting

namespace Tree

open Drafting

variable {run : Text → List Value → World → Running}

theorem IsItem.walk_eq {t : Tree} (h : IsItem t) (hp : Plain t) (d : Draft) (w : World) :
    walk run t ⟨d, w⟩ = Draft.outcome w (Draft.ofItems t.items d) := by
  obtain ⟨x, rfl, hx, h⟩ := h.exists_items
  have hpx := hp.kid (List.mem_singleton.mpr rfl)
  rw [hx, Draft.ofItems_singleton]
  rcases h with h | h
  · have hw : walk run x = perform x.notes := h.walk_eq hpx
    have hrun : walk run (.node .command [x]) = (do
        let c ← get
        update (·.expectRow)
        perform x.notes
        update (·.closePipe c.draft.tree.length)) := by
      simp [walk_command, h.rule?_eq, hw]
    rw [hrun, Draft.item, if_pos h.rule?_eq]
    change (perform x.notes >>= fun _ => update (·.closePipe d.tree.length)) ⟨d.expectRow, w⟩ = _
    simp only [bind, EStateM.bind, perform_eq]
    cases Draft.follow x.notes d.expectRow with
    | ok d' => rfl
    | error d' => rfl
  · have hw : walk run x = perform x.notes := h.walk_eq hpx
    rw [Draft.item, if_neg (by simp [h.rule?_eq])]
    simp [walk_command, h.rule?_eq, hw, perform_eq]

/-- A line that is joined is closed as a sequence. -/
theorem walk_joined {a s b : Tree} (hs : IsLeaf [.semicolon] s) (hb : b.rule? = some .command) :
    walk run (.node .command [a, s, b]) =
      (do walk run a; walk run b; update (·.closeSequence)) := by
  obtain ⟨hk⟩ := hs
  simp [walk_command, hb]

theorem IsCommand.walk_eq {t : Tree} (h : IsCommand t) (hp : Plain t) (d : Draft) (w : World) :
    walk run t ⟨d, w⟩ = Draft.outcome w (Draft.ofItems t.items d) := by
  induction h generalizing d with
  | item h => exact h.walk_eq hp d w
  | @join a s b ha hs hb ih =>
      have hwa := ih (hp.kid (by simp)) d
      have hwb : ∀ d, walk run b ⟨d, w⟩ = Draft.outcome w (Draft.ofItems b.items d) :=
        fun d => hb.walk_eq (hp.kid (by simp)) d w
      obtain ⟨x, hbx, hx, -⟩ := hb.exists_items
      rw [walk_joined hs hb.rule?_eq, items_join hs, Draft.ofItems_append ha.items_ne_nil, hx]
      simp only [bind, EStateM.bind, hwa]
      cases Draft.ofItems a.items d with
      | error d' => rfl
      | ok d' =>
          simp only [Draft.outcome, hwb, hx, Draft.ofItems_singleton, Except.bind, Draft.join]
          cases d'.item x with
          | error d'' => rfl
          | ok d'' => rfl

/-- Only a line that is one call is run as a call. -/
theorem IsCommand.commands_eq {t : Tree} (h : IsCommand t) (d : Draft) :
    commands t d = if t.items.map rule? = [some .call] then d.single else d.queued := by
  cases h with
  | item h =>
      obtain ⟨x, rfl, hx, h | h⟩ := h.exists_items
      · simp [commands, hx, kids, h.rule?_eq]
      · simp [commands, hx, kids, h.rule?_eq]
  | @join a s b ha hs hb =>
      have hlen : (a.items ++ b.items).map rule? ≠ [some .call] := by
        intro heq
        have := congrArg List.length heq
        have ha' := List.length_pos_of_ne_nil ha.items_ne_nil
        have hb' := List.length_pos_of_ne_nil (IsCommand.item hb).items_ne_nil
        simp at this
        omega
      rw [items_join hs, if_neg hlen]
      simp [commands, kids, hb.rule?_eq]

end Tree

/-- A line without back quotes that is read without complaint. -/
structure Clear (line : Text) : Prop where
  complaints : (Parse.read .command line).complaints = []
  backQuote : Text.backQuote ∉ line

/-- The tree of a line. -/
def treeOf (line : Text) : Tree := (Parse.read .command line).tree

namespace Clear

theorem tree_cases {line : Text} (h : Clear line) :
    treeOf line = .node .command [] ∨ ((treeOf line).IsCommand ∧ (treeOf line).Plain) := by
  rcases Parse.read_sound (by decide) h.complaints with hnil | ⟨hshape, more, htokens⟩
  · exact Or.inl hnil
  · refine Or.inr ⟨hshape.1, ?_, ?_⟩
    · have hlexed := Token.lexed_scan line
      rw [← htokens] at hlexed
      exact hlexed.left
    · intro k hk
      apply Token.kind_ne_backMark h.backQuote
      rw [← htokens]
      exact List.mem_append_left more hk

theorem isCommand {line : Text} (h : Clear line) (hi : (treeOf line).items ≠ []) :
    (treeOf line).IsCommand ∧ (treeOf line).Plain := by
  rcases h.tree_cases with hnil | htree
  · rw [hnil] at hi
    exact absurd rfl hi
  · exact htree

end Clear

/-- A world with one empty folder. -/
def World.bare : World := ⟨.folder [], [], [], false, [], []⟩

/-- Commands with their words. -/
def Draft.resolve (d : Draft) (commands : List (Form × List Nat)) :
    List (Form × List (List Text)) :=
  commands.map (fun p => (p.1, d.words p.2))

/-- The commands of a line with their words. -/
def Drafted.resolved (c : Drafted) : Except Fault (List (Form × List (List Text))) :=
  c.commands.map c.draft.resolve

/-- What a draft comes to for a line. -/
def drafted (t : Tree) (w : World) : Except Draft Draft → Drafted
  | .ok d => ⟨d, .ok (Drafting.commands t d), w⟩
  | .error d => ⟨d, .error .listIndex, w⟩

theorem Clear.draftWith_eq {line : Text} (h : Clear line)
    (run : Text → List Value → World → Running) (w : World) :
    draftWith run line w =
      drafted (treeOf line) w (Draft.ofItems (treeOf line).items Draft.empty) := by
  have hwarn : w.warn ((Parse.read .command line).complaints.flatMap Complaint.report) = w := by
    simp [h.complaints, World.warn]
  have hwalk : Drafting.walk run (treeOf line) ⟨Draft.empty, w⟩ =
      Draft.outcome w (Draft.ofItems (treeOf line).items Draft.empty) := by
    rcases h.tree_cases with hnil | ⟨hc, hp⟩
    · rw [hnil]
      simp [Drafting.walk_command, Tree.items, Tree.outermost_node, Draft.ofItems, Draft.outcome,
        pure, EStateM.pure]
    · exact hc.walk_eq hp _ _
  rw [treeOf] at hwalk ⊢
  rw [draftWith, hwarn, hwalk]
  cases Draft.ofItems (Parse.read .command line).tree.items Draft.empty <;> rfl

end CommandShell
