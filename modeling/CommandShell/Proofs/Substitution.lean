import Mathlib.Data.List.Forall2
import CommandShell.Proofs.BackQuotes
import CommandShell.Proofs.CallRows
import CommandShell.Proofs.Exactness
import CommandShell.Proofs.Pipelines

/-! # Running lines with back quotes

A line of calls is run in two stages: first the rows of all its calls are made, with all that
stands between back quotes run on the way, and then the calls are run one after another on one
output. -/

namespace CommandShell

open Drafting

/-! ### The rows of calls -/

namespace Tree

/-- The rows of a call, when the substitutions in it are made. -/
def rowsIn (run : Text → List Value → World → Running) (c : Tree) :
    EStateM Fault World (List (List Text)) := gather [[]] <$> c.deeds.mapM (settle run)

/-- Rows of a call with a name: those after the first start with operators. -/
def Shaped (name : Text) (signs : List Text) (rows : List (List Text)) : Prop :=
  ∃ words others, rows = (name :: words) :: others ∧
    ∀ row ∈ others, ∃ s rest, row = s :: rest ∧ s ∈ operators ∧ s ∈ signs

end Tree

namespace Drafting

variable {run : Text → List Value → World → Running}

theorem eq_of_onto_ok {x : Drafting Unit} {d d' : Draft} {w w' : World}
    (h : onto x d w = .ok d' w') : x ⟨d, w⟩ = .ok () ⟨d', w'⟩ := by
  rw [onto] at h
  cases hx : x ⟨d, w⟩ with
  | ok u c =>
      rw [hx] at h
      cases h
      rfl
  | error e c =>
      rw [hx] at h
      cases h

theorem exists_of_onto_error {x : Drafting Unit} {d : Draft} {w w' : World} {e : Fault}
    (h : onto x d w = .error e w') : ∃ d', x ⟨d, w⟩ = .error e ⟨d', w'⟩ := by
  rw [onto] at h
  cases hx : x ⟨d, w⟩ with
  | ok u c =>
      rw [hx] at h
      cases h
  | error e c =>
      rw [hx] at h
      cases h
      exact ⟨c.draft, rfl⟩

theorem onto_perform {notes : List Note} {d d' : Draft} (h : d.follow notes = .ok d') :
    onto (perform notes) d = pure d' := by
  funext w
  rw [onto, perform_eq, h]
  rfl

theorem mapM_settle_notes (notes : List Note) (ds : List Deed) :
    (notes.map Deed.note ++ ds).mapM (settle run) = (notes ++ ·) <$> ds.mapM (settle run) := by
  induction notes with
  | nil => simp
  | cons n notes ih =>
      rw [List.map_cons, List.cons_append, List.mapM_cons, settle, pure_bind, ih,
        map_eq_pure_bind, map_eq_pure_bind, bind_assoc]
      simp only [pure_bind, List.cons_append]

theorem mapM_settle_all_notes (notes : List Note) :
    (notes.map Deed.note).mapM (settle run) = pure notes := by
  rw [← List.append_nil (notes.map Deed.note), mapM_settle_notes]
  simp

theorem exists_of_bind_eq_ok {α β : Type} {x : EStateM Fault World α}
    {f : α → EStateM Fault World β} {w w' : World} {b : β} (h : (x >>= f) w = .ok b w') :
    ∃ a w₁, x w = .ok a w₁ ∧ f a w₁ = .ok b w' := by
  simp only [bind, EStateM.bind] at h
  cases hx : x w with
  | ok a w₁ =>
      rw [hx] at h
      exact ⟨a, w₁, rfl, h⟩
  | error e w₁ =>
      rw [hx] at h
      cases h

theorem bind_eq_of_ok {α β : Type} {x : EStateM Fault World α} {w w' : World} {a : α}
    (h : x w = .ok a w') (f : α → EStateM Fault World β) : (x >>= f) w = f a w' := by
  simp only [bind, EStateM.bind, h]

theorem bind_eq_of_error {α β : Type} {x : EStateM Fault World α} {w w' : World} {e : Fault}
    (h : x w = .error e w') (f : α → EStateM Fault World β) : (x >>= f) w = .error e w' := by
  simp only [bind, EStateM.bind, h]

theorem bind_congr_of_ok {α β : Type} {x : EStateM Fault World α}
    {f g : α → EStateM Fault World β} (h : ∀ w a w', x w = .ok a w' → f a = g a) :
    x >>= f = x >>= g := by
  funext w
  simp only [bind, EStateM.bind]
  cases hx : x w with
  | ok a w' =>
      change f a w' = g a w'
      rw [h w a w' hx]
  | error e w' => rfl

theorem within_settle {d : Deed} {signs : List Text} (hd : d.Within signs) {w w' : World}
    {n : Note} (h : settle run d w = .ok n w') : (Deed.note n).Within signs := by
  cases d with
  | note m =>
      cases h
      exact hd
  | substitute t =>
      rw [settle, map_eq_pure_bind] at h
      obtain ⟨word, w₁, -, hword⟩ := exists_of_bind_eq_ok h
      cases hword
      trivial

/-- What has been made of each of several things has been made of it in some world. -/
theorem forall₂_of_mapM {α β : Type} {f : α → EStateM Fault World β} {xs : List α} {ys : List β}
    {w w' : World} (h : xs.mapM f w = .ok ys w') :
    List.Forall₂ (fun x y => ∃ v v', f x v = .ok y v') xs ys := by
  induction xs generalizing w ys with
  | nil =>
      cases h
      exact .nil
  | cons x xs ih =>
      rw [List.mapM_cons] at h
      obtain ⟨y, w₁, hy, hrest⟩ := exists_of_bind_eq_ok h
      obtain ⟨ys', w₂, hys, hcons⟩ := exists_of_bind_eq_ok hrest
      cases hcons
      exact .cons ⟨w, w₁, hy⟩ (ih hys)

/-- The notes that deeds from inside a call come to are from inside a call. -/
theorem within_mapM {ds : List Deed} {signs : List Text} (hds : ∀ d ∈ ds, d.Within signs)
    {w w' : World} {notes : List Note} (h : ds.mapM (settle run) w = .ok notes w') :
    ∀ n ∈ notes, (Deed.note n).Within signs := by
  have hnotes := forall₂_of_mapM h
  clear h
  induction hnotes with
  | nil => simp
  | @cons d n ds notes hn _ ih =>
      obtain ⟨v, v', hn⟩ := hn
      intro m hm
      rcases List.mem_cons.mp hm with rfl | hm
      · exact within_settle (hds d (by simp)) hn
      · exact ih (fun x hx => hds x (by simp [hx])) m hm

theorem redirection_mem_mapM {ds : List Deed} {w w' : World} {notes : List Note}
    (h : ds.mapM (settle run) w = .ok notes w') {s : Text}
    (hs : Deed.note (.redirection s) ∈ ds) : Note.redirection s ∈ notes := by
  have hnotes := forall₂_of_mapM h
  clear h
  induction hnotes with
  | nil => cases hs
  | @cons d n ds notes hn _ ih =>
      rcases List.mem_cons.mp hs with rfl | hs
      · obtain ⟨v, v', hn⟩ := hn
        cases hn
        exact List.mem_cons_self
      · exact List.mem_cons_of_mem n (ih hs)

end Drafting

/-- Inside a call only redirections start rows. -/
theorem collect_within {signs : List Text} {notes : List Note}
    (h : ∀ n ∈ notes, (Deed.note n).Within signs) (rows : List (List Text)) :
    collect 0 rows notes = (0, gather rows notes) := by
  induction notes generalizing rows with
  | nil => rfl
  | cons n notes ih =>
      have hrest : ∀ m ∈ notes, (Deed.note m).Within signs := fun m hm => h m (by simp [hm])
      cases n with
      | expected => exact absurd (h .expected (by simp)) id
      | redirection s => exact ih hrest _
      | argument t =>
          rw [collect, if_neg (by simp)]
          exact ih hrest _
      | word t => exact ih hrest _

namespace Tree

variable {run : Text → List Value → World → Running} {c : Tree} {name : Text} {rest : List Deed}

theorem Headed.deeds_eq (h : c.Headed name rest) :
    c.deeds = [.expected, .argument name, .word name].map .note ++ rest := h.deeds

theorem Headed.rowsIn_eq (h : c.Headed name rest) :
    c.rowsIn run = gather [[name]] <$> rest.mapM (settle run) := by
  rw [rowsIn, h.deeds_eq, mapM_settle_notes, Functor.map_map]
  rfl

/-- Walking a call adds its rows. -/
theorem Headed.onto_walk (h : c.Headed name rest) (hw : walk run c = carryOutAll run c.deeds)
    (rows : List (List Text)) (queue : List Plan) :
    onto (walk run c) (.flat rows rows.length queue) = (do
      let block ← c.rowsIn run
      pure (.flat (rows ++ block) (rows ++ block).length queue)) := by
  have hname : Draft.follow [.expected, .argument name, .word name]
      (.flat rows rows.length queue) =
        .ok (.flat (rows ++ [[name]]) ((rows ++ [[name]]).length + 0) queue) :=
    Draft.follow_name h.isName rows 0
  rw [hw, h.deeds_eq, carryOutAll_append, onto_bind, carryOutAll_notes, onto_perform hname,
    pure_bind, onto_carryOutAll (by simp), h.rowsIn_eq, map_eq_pure_bind, bind_assoc]
  refine bind_congr_of_ok fun w notes w' hnotes => ?_
  rw [collect_within (within_mapM h.rest hnotes), pure_bind, gather_append_rows (by simp)]
  rfl

end Tree

/-! ### The shape of rows -/

theorem mem_addToLast {t : Text} {rows : List (List Text)} {row : List Text}
    (h : row ∈ addToLast t rows) : row ∈ rows ∨ ∃ r ∈ rows, row = r ++ [t] := by
  fun_induction addToLast t rows with
  | case1 => cases h
  | case2 r => exact Or.inr ⟨r, by simp, List.mem_singleton.mp h⟩
  | case3 r next rest ih =>
      rcases List.mem_cons.mp h with rfl | h
      · exact Or.inl (by simp)
      · rcases ih h with hold | ⟨x, hx, rfl⟩
        · exact Or.inl (List.mem_cons_of_mem _ hold)
        · exact Or.inr ⟨x, List.mem_cons_of_mem _ hx, rfl⟩

/-- A name is no operator. -/
theorem isText_of_isName {name s : Text} (hn : Application.isName name = true)
    (hs : s ∈ Tree.operators) : (Value.text name).isText s = false := by
  rw [Value.isText, decide_eq_false_iff_not]
  rintro rfl
  rw [isName_of_mem_operators hs] at hn
  cases hn

namespace Tree

variable {name : Text} {signs : List Text} {rows : List (List Text)}

theorem Shaped.addToLast (h : Shaped name signs rows) (t : Text) :
    Shaped name signs (addToLast t rows) := by
  obtain ⟨words, others, rfl, hothers⟩ := h
  cases others with
  | nil => exact ⟨words ++ [t], [], rfl, by simp⟩
  | cons row rest =>
      refine ⟨words, CommandShell.addToLast t (row :: rest), rfl, ?_⟩
      intro r hr
      rcases mem_addToLast hr with hold | ⟨x, hx, rfl⟩
      · exact hothers r hold
      · obtain ⟨s, more, rfl, hs⟩ := hothers x hx
        exact ⟨s, more ++ [t], rfl, hs⟩

theorem Shaped.openRow (h : Shaped name signs rows) {s : Text} (hs : s ∈ operators ∧ s ∈ signs) :
    Shaped name signs (rows ++ [[s]]) := by
  obtain ⟨words, others, rfl, hothers⟩ := h
  refine ⟨words, others ++ [[s]], rfl, ?_⟩
  intro r hr
  rcases List.mem_append.mp hr with hr | hr
  · exact hothers r hr
  · rw [List.mem_singleton.mp hr]
    exact ⟨s, [], rfl, hs⟩

theorem Shaped.gather {notes : List Note} (h : Shaped name signs rows)
    (hn : ∀ n ∈ notes, (Deed.note n).Within signs) : Shaped name signs (gather rows notes) := by
  induction notes generalizing rows with
  | nil => exact h
  | cons n notes ih =>
      have hrest : ∀ m ∈ notes, (Deed.note m).Within signs := fun m hm => hn m (by simp [hm])
      cases n with
      | expected => exact absurd (hn .expected (by simp)) id
      | redirection s => exact ih (h.openRow (hn (.redirection s) (by simp))) hrest
      | argument t => exact ih h hrest
      | word t => exact ih (h.addToLast t) hrest

theorem Headed.shaped {run : Text → List Value → World → Running} {c : Tree} {rest : List Deed}
    (h : c.Headed name rest) {w w' : World} {block : List (List Text)}
    (hb : c.rowsIn run w = .ok block w') : Shaped name c.signs block := by
  rw [h.rowsIn_eq, map_eq_pure_bind] at hb
  obtain ⟨notes, w₁, hnotes, hblock⟩ := exists_of_bind_eq_ok hb
  cases hblock
  exact Shaped.gather ⟨[], [], rfl, by simp⟩ (within_mapM h.rest hnotes)

/-- A call with a redirection has a row for it. -/
theorem Headed.two_le_length {run : Text → List Value → World → Running} {c : Tree}
    {rest : List Deed} (h : c.Headed name rest) {w w' : World} {block : List (List Text)}
    (hb : c.rowsIn run w = .ok block w') (hs : c.signs ≠ []) : 2 ≤ block.length := by
  rw [h.rowsIn_eq, map_eq_pure_bind] at hb
  obtain ⟨notes, w₁, hnotes, hblock⟩ := exists_of_bind_eq_ok hb
  cases hblock
  obtain ⟨s, hmem⟩ := List.exists_mem_of_ne_nil _ hs
  obtain ⟨r, hr, rfl⟩ := List.mem_map.mp hmem
  have hnote := redirection_mem_mapM hnotes (h.redirection_mem r hr)
  have hsign : r.sign ∈ notes.filterMap Note.redirection? :=
    List.mem_filterMap.mpr ⟨_, hnote, rfl⟩
  have hpos := List.length_pos_of_mem hsign
  rw [length_gather, List.length_singleton]
  omega

/-- The rows of a call are a block. -/
theorem Shaped.isBlock (h : Shaped name signs rows) (hn : Application.isName name = true) :
    Command.IsBlock (textRows rows) := by
  obtain ⟨words, others, rfl, hothers⟩ := h
  refine ⟨hn, ?_⟩
  intro row hrow
  obtain ⟨r, hr, rfl⟩ := List.mem_map.mp hrow
  obtain ⟨s, more, rfl, hs, -⟩ := hothers r hr
  exact isName_of_mem_operators hs

/-- Rows that can be those of a call. -/
structure Blocked (c : Tree) (b : List (List Text)) : Prop where
  shaped : ∃ name, Application.isName name = true ∧ Shaped name c.signs b
  redirected : c.signs ≠ [] → 2 ≤ b.length

end Tree

/-! ### Drafts of lines -/

/-- A line that is read without complaint, with no pipes, and with a name of an application at
the start of each call. -/
structure CallLine (line : Text) : Prop where
  complaints : (Parse.read .command line).complaints = []
  calls : ∀ x ∈ (treeOf line).items, x.rule? = some .call
  named : ∀ x ∈ (treeOf line).items, x.startsWithName = true

namespace Tree

variable {run : Text → List Value → World → Running}

/-- A call whose rows can be made. -/
structure Ready (run : Text → List Value → World → Running) (c : Tree) : Prop where
  walk : walk run c = carryOutAll run c.deeds
  headed : ∃ name rest, c.Headed name rest

theorem IsItem.onto_walk {t : Tree} (h : IsItem t) (hc : ∀ x ∈ t.items, x.rule? = some .call)
    (hr : ∀ x ∈ t.items, Ready run x) (rows : List (List Text)) (queue : List Plan) :
    onto (walk run t) (.flat rows rows.length queue) = (do
      let blocks ← t.items.mapM (rowsIn run)
      pure (.flat (rows ++ blocks.flatten) (rows ++ blocks.flatten).length queue)) := by
  obtain ⟨x, rfl, hx, -⟩ := h.exists_items
  have hcall : x.rule? = some .call := hc x (by simp [hx])
  obtain ⟨hwalk, name, rest, hheaded⟩ := hr x (by simp [hx])
  have hnode : walk run (.node .command [x]) = walk run x := by
    simp [walk_command, hcall]
  rw [hnode, hheaded.onto_walk hwalk, hx]
  simp

/-- Walking a command of calls makes the rows of the calls one after another. -/
theorem IsCommand.onto_walk {t : Tree} (h : IsCommand t)
    (hc : ∀ x ∈ t.items, x.rule? = some .call) (hr : ∀ x ∈ t.items, Ready run x) :
    onto (walk run t) Draft.empty = (do
      let blocks ← t.items.mapM (rowsIn run)
      pure (.flat blocks.flatten blocks.flatten.length (Draft.callsQueue t.items.length))) := by
  induction h with
  | item h =>
      obtain ⟨x, -, hx, -⟩ := h.exists_items
      have hone : Draft.callsQueue (List.length [x]) = [] := rfl
      have hwalk := h.onto_walk hc hr [] []
      rw [hx] at hwalk ⊢
      rw [hone]
      exact hwalk
  | @join a s b ha hs hb ih =>
      obtain ⟨x, -, hx, -⟩ := hb.exists_items
      rw [items_join hs] at hc hr
      have hqueue : [Plan.sequence 0] = Draft.callsQueue (a.items ++ b.items).length := by
        have hpos := List.length_pos_of_ne_nil ha.items_ne_nil
        rw [Draft.callsQueue, if_neg]
        rw [List.length_append, hx, List.length_singleton]
        omega
      rw [walk_joined hs hb.rule?_eq, onto_bind,
        ih (fun y hy => hc y (by simp [hy])) (fun y hy => hr y (by simp [hy])),
        items_join hs, List.mapM_append, bind_assoc, bind_assoc]
      refine bind_congr fun blocks => ?_
      rw [pure_bind, onto_bind,
        hb.onto_walk (fun y hy => hc y (by simp [hy])) (fun y hy => hr y (by simp [hy])),
        bind_assoc, bind_assoc]
      refine bind_congr fun last => ?_
      rw [pure_bind, pure_bind, onto_update, Draft.closeSequence_flat, hqueue,
        List.flatten_append]

end Tree

/-! ### Running lines in two stages -/

/-- What a run comes to behind what has been given out before. A run that fails gives nothing
out. -/
def behind (out : List Value) (r : Running) : Running :=
  (if r.2.2.isSome then out else out ++ r.1, r.2)

/-- One command with all rows of a draft. -/
theorem Draft.run_script_flat (rows : List (List Text)) (n : Nat) (queue : List Plan) (form : Form)
    (out : List Value) (w : World) :
    ((flat rows n queue).script [(form, List.range rows.length)]).run out w =
      behind out (Command.run form (textRows rows) [] [] w).running := by
  have hrows : Script.rowsAt ⟨textRows rows, []⟩ (List.range rows.length) = textRows rows := by
    apply List.ext_getElem
    · simp [Script.rowsAt, textRows]
    · intro i hi hi'
      simp [Script.rowsAt, textRows, show i < rows.length by simpa [textRows] using hi']
  change Script.runFrom (textRows rows) [] [] out w [(form, List.range rows.length)] = _
  rw [Script.runFrom, hrows]
  generalize Command.run form (textRows rows) [] [] w = r
  cases hf : r.fault with
  | some e => simp [behind, Command.Outcome.running, hf]
  | none => simp [behind, Command.Outcome.running, hf, Script.runFrom]

/-- Run calls one after another on one output, by their rows. -/
def runBlocks (blocks : List (List (List Text))) (out : List Value) (w : World) : Running :=
  (Command.runSequence (blocks.map textRows) [] out w).running

theorem runBlocks_sequence {blocks : List (List (List Text))} (hne : blocks ≠ [])
    (h : ∀ b ∈ blocks, Command.IsBlock (textRows b)) (w : World) :
    (Command.run .sequence (textRows blocks.flatten) [] [] w).running = runBlocks blocks [] w := by
  obtain ⟨b, bs, rfl⟩ := List.exists_cons_of_ne_nil hne
  have hflat : textRows (b :: bs).flatten = textRows b ++ (bs.map textRows).flatten := by
    rw [List.flatten_cons, textRows, List.map_append, List.map_flatten]
    rfl
  have hbs : ∀ c ∈ bs.map textRows, Command.IsBlock c := by
    intro c hc
    obtain ⟨x, hx, rfl⟩ := List.mem_map.mp hc
    exact h x (by simp [hx])
  rw [hflat, Command.running_run_sequence (h b (by simp)) hbs]
  rfl

theorem runBlocks_call (b : List (List Text)) (w : World) :
    (Command.run .call (textRows b) [] [] w).running = runBlocks [b] [] w :=
  (Command.running_runSequence_singleton _ _ _ _).symm

/-- What a line comes to when the rows of its calls have been made, or could not be. -/
def runMade (out : List Value) :
    EStateM.Result Fault World (List (List (List Text))) → Running
  | .ok blocks w => behind out (runBlocks blocks [] w)
  | .error e w => (out, w, some e.ofDrafting)

/-- The rows of the calls of a line, when all substitutions in it are made. -/
def blocksOf (run : Text → List Value → World → Running) (line : Text) :
    EStateM Fault World (List (List (List Text))) := (treeOf line).items.mapM (Tree.rowsIn run)

theorem Parse.scanned_of_read {line : Text} (h : (Parse.read .command line).complaints = []) :
    (treeOf line).Scanned := by
  have htokens : (treeOf line).tokens = _ := (Parse.isCommand_of_read h).2
  have hlexed := Token.lexed_scan line
  rw [← List.take_append_drop (Parse.read .command line).next (Token.scan line),
    ← htokens] at hlexed
  exact hlexed.left

namespace CallLine

variable {line : Text} {run : Text → List Value → World → Running}

theorem isCommand (h : CallLine line) : (treeOf line).IsCommand :=
  (Parse.isCommand_of_read h.complaints).1

theorem scanned (h : CallLine line) : (treeOf line).Scanned := Parse.scanned_of_read h.complaints

theorem ready (h : CallLine line) : ∀ x ∈ (treeOf line).items, Tree.Ready run x := by
  intro x hx
  obtain ⟨hs, hcase⟩ := h.isCommand.each_of_kid Tree.Scanned.kid h.scanned x hx
  have hcall := Tree.isCall_of_rule? hcase (h.calls x hx)
  exact ⟨hcall.walk_deeds hs, hcall.exists_headed hs (h.named x hx)⟩

/-- Each call of a line has rows of its own. -/
theorem forall₂_blocks (h : CallLine line) {blocks : List (List (List Text))} {w w' : World}
    (hb : blocksOf run line w = .ok blocks w') :
    List.Forall₂ Tree.Blocked (treeOf line).items blocks := by
  have hready : ∀ x ∈ (treeOf line).items, Tree.Ready run x := h.ready
  have hmade := Drafting.forall₂_of_mapM hb
  refine (List.Forall₂.imp ?_ ((List.forall₂_and_left _ _).mpr ⟨hready, hmade⟩))
  rintro c b ⟨⟨-, name, rest, hheaded⟩, v, v', hrows⟩
  exact ⟨⟨name, hheaded.isName, hheaded.shaped hrows⟩, hheaded.two_le_length hrows⟩

theorem exists_call_of_mem (h : CallLine line) {blocks : List (List (List Text))} {w w' : World}
    (hb : blocksOf run line w = .ok blocks w') :
    ∀ b ∈ blocks, ∃ c ∈ (treeOf line).items, Tree.Blocked c b := by
  have hmem := (List.forall₂_and_left _ _).mpr
    ⟨fun c (hc : c ∈ (treeOf line).items) => hc, h.forall₂_blocks hb⟩
  have hflip : List.Forall₂ (fun b _ => (∃ c ∈ (treeOf line).items, Tree.Blocked c b) ∧ True)
      blocks (treeOf line).items := (hmem.imp fun c b hcb => ⟨⟨c, hcb⟩, trivial⟩).flip
  exact ((List.forall₂_and_left _ _).mp hflip).1

theorem isBlock (h : CallLine line) {blocks : List (List (List Text))} {w w' : World}
    (hb : blocksOf run line w = .ok blocks w') :
    ∀ b ∈ blocks, Command.IsBlock (textRows b) := by
  intro b hmem
  obtain ⟨c, -, ⟨name, hn, hs⟩, -⟩ := h.exists_call_of_mem hb b hmem
  exact hs.isBlock hn

/-- The commands of a line whose rows have been made. -/
theorem run_flat (h : CallLine line) {blocks : List (List (List Text))} {w w' : World}
    (hb : blocksOf run line w = .ok blocks w') (out : List Value) {d : Draft}
    (hd : d = .flat blocks.flatten blocks.flatten.length
      (Draft.callsQueue (treeOf line).items.length)) :
    (d.script (Drafting.commands (treeOf line) d)).run out w' =
      behind out (runBlocks blocks [] w') := by
  have hlength : (treeOf line).items.length = blocks.length := (h.forall₂_blocks hb).length_eq
  have hne : blocks ≠ [] := by
    intro hnil
    rw [hnil, List.length_nil] at hlength
    exact h.isCommand.items_ne_nil (List.length_eq_zero_iff.mp hlength)
  subst hd
  rw [Draft.commands_calls h.isCommand h.calls, Draft.run_script_flat]
  by_cases hone : (treeOf line).items.length = 1
  · obtain ⟨b, rfl⟩ := List.length_eq_one_iff.mp (hlength.symm.trans hone)
    rw [if_pos hone, ← runBlocks_call, List.flatten_singleton]
  · rw [if_neg hone, runBlocks_sequence hne (h.isBlock hb)]

theorem onto_walk (h : CallLine line) (w : World) :
    w.warn ((Parse.read .command line).complaints.flatMap Complaint.report) = w ∧
      onto (walk run (Parse.read .command line).tree) Draft.empty w = (do
        let blocks ← blocksOf run line
        pure (Draft.flat blocks.flatten blocks.flatten.length
          (Draft.callsQueue (treeOf line).items.length))) w :=
  ⟨by simp [h.complaints, World.warn], congrFun (h.isCommand.onto_walk h.calls h.ready) w⟩

theorem draftWith_of_ok (h : CallLine line) {blocks : List (List (List Text))} {w w' : World}
    (hb : blocksOf run line w = .ok blocks w') {d : Draft}
    (hd : d = .flat blocks.flatten blocks.flatten.length
      (Draft.callsQueue (treeOf line).items.length)) :
    draftWith run line w = ⟨d, .ok (Drafting.commands (treeOf line) d), w'⟩ := by
  obtain ⟨hwarn, honto⟩ := h.onto_walk w
  rw [draftWith, hwarn, eq_of_onto_ok (honto.trans (bind_eq_of_ok hb _)), hd]
  rfl

theorem draftWith_of_error (h : CallLine line) {w w' : World} {e : Fault}
    (hb : blocksOf run line w = .error e w') :
    ∃ d, draftWith run line w = ⟨d, .error e, w'⟩ := by
  obtain ⟨hwarn, honto⟩ := h.onto_walk w
  obtain ⟨d, hwalk⟩ := exists_of_onto_error (honto.trans (bind_eq_of_error hb _))
  exact ⟨d, by rw [draftWith, hwarn, hwalk]⟩

/-- A line of calls is run in two stages. -/
theorem runWith_eq (h : CallLine line) (out : List Value) (w : World) :
    runWith run line out w = runMade out (blocksOf run line w) := by
  rw [runWith]
  cases hb : blocksOf run line w with
  | ok blocks w' =>
      rw [h.draftWith_of_ok hb rfl]
      exact h.run_flat hb out rfl
  | error e w' =>
      obtain ⟨d, hdraft⟩ := h.draftWith_of_error hb
      rw [hdraft]
      rfl

end CallLine

end CommandShell
