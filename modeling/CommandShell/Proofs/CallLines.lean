import CommandShell.Proofs.JoinedCalls
import CommandShell.Proofs.Substitution

/-! # Lines of calls with `;` between them

The rows of a call do not depend on where in a line the call stands. Two lines of calls with `;`
between them are a line of calls whose rows are made one line after the other, provided that the
first line is read to its end. -/

namespace CommandShell

open Drafting

/-! ### Trees without their places -/

namespace Tree

theorem textAll_eq_flatMap (ts : List Tree) : textAll ts = ts.flatMap text := by
  induction ts with
  | nil => rfl
  | cons t ts ih => rw [textAll, ih, List.flatMap_cons]

theorem flatMap_unplaced {α : Type} {f g : Tree → List α} {kids : List Tree}
    (h : ∀ x ∈ kids, f x.unplaced = g x) : (kids.map unplaced).flatMap f = kids.flatMap g := by
  rw [List.flatMap_map]
  exact List.flatMap_congr h

theorem unplaced_eq_mapTokens : unplaced = mapTokens Token.unplaced := by
  funext t
  induction t using induction_kids with
  | leaf t => rfl
  | skipped t => rfl
  | missing k => rfl
  | node r kids ih => rw [unplaced_node, mapTokens_node, List.map_congr_left ih]

@[simp] theorem rule?_unplaced (t : Tree) : t.unplaced.rule? = t.rule? := by
  rw [unplaced_eq_mapTokens, rule?_mapTokens]

@[simp] theorem kind?_unplaced (t : Tree) : t.unplaced.kind? = t.kind? := by
  cases t <;> rfl

theorem kids_unplaced (t : Tree) : t.unplaced.kids = t.kids.map unplaced := by
  rw [unplaced_eq_mapTokens, kids_mapTokens]

@[simp] theorem text_unplaced (t : Tree) : t.unplaced.text = t.text := by
  induction t using induction_kids with
  | leaf t => rfl
  | skipped t => rfl
  | missing k => rfl
  | node r kids ih =>
      rw [unplaced_node, text_node, text_node, textAll_eq_flatMap, textAll_eq_flatMap]
      exact flatMap_unplaced ih

@[simp] theorem textAll_unplaced (ts : List Tree) : textAll (ts.map unplaced) = textAll ts := by
  rw [textAll_eq_flatMap, textAll_eq_flatMap]
  exact flatMap_unplaced fun x _ => text_unplaced x

theorem outermost_mapTokens (φ : Token → Token) (rs : List Rule) (t : Tree) :
    (t.mapTokens φ).outermost rs = (t.outermost rs).map (mapTokens φ) := by
  induction t using induction_kids with
  | leaf t => rfl
  | skipped t => rfl
  | missing k => rfl
  | node r kids ih =>
      rw [mapTokens_node, outermost_node, outermost_node]
      split
      · rw [List.map_singleton, mapTokens_node]
      · rw [outermostAll_eq_flatMap, outermostAll_eq_flatMap, List.flatMap_map, List.map_flatMap]
        exact List.flatMap_congr ih

@[simp] theorem outermost_unplaced (rs : List Rule) (t : Tree) :
    t.unplaced.outermost rs = (t.outermost rs).map unplaced := by
  rw [unplaced_eq_mapTokens, outermost_mapTokens]

theorem sign_unplaced (t : Tree) : t.unplaced.sign = t.sign := by
  have hoperator : isOperator ∘ unplaced = isOperator := by
    funext x
    simp [isOperator]
  rw [sign, kids_unplaced, List.filter_map, hoperator, textAll_unplaced]
  rfl

@[simp] theorem startsWithName_unplaced (t : Tree) :
    t.unplaced.startsWithName = t.startsWithName := by
  have hnode : (fun k : Tree => k.rule?.isSome) ∘ unplaced = fun k => k.rule?.isSome := by
    funext x
    simp
  rw [startsWithName, firstNode?, kids_unplaced, List.find?_map, hnode, Option.any_map]
  simp [startsWithName, firstNode?]

@[simp] theorem deeds_unplaced (t : Tree) : t.unplaced.deeds = t.deeds := by
  induction t using induction_kids with
  | leaf t => rfl
  | skipped t => rfl
  | missing k => rfl
  | node r kids ih =>
      have hkids : deedsAll (kids.map unplaced) = deedsAll kids := by
        rw [deedsAll_eq_flatMap, deedsAll_eq_flatMap]
        exact flatMap_unplaced ih
      rw [unplaced_node]
      cases r with
      | line | command | atom | quoted => exact hkids
      | pipe | call => exact congrArg (List.cons _) hkids
      | redirection =>
          have hsign := sign_unplaced (.node .redirection kids)
          rw [unplaced_node] at hsign
          rw [deeds_redirection, deeds_redirection, hkids, hsign]
      | argument => rw [deeds_argument, deeds_argument, hkids, textAll_unplaced]
      | unquoted => rw [deeds_unquoted, deeds_unquoted, textAll_unplaced]
      | singleQuoted => rw [deeds_singleQuoted, deeds_singleQuoted, textAll_unplaced]
      | backQuoted => rw [deeds_backQuoted, deeds_backQuoted, textAll_unplaced]
      | doubleQuoted => rw [deeds_doubleQuoted, deeds_doubleQuoted, textAll_unplaced]

theorem rowsIn_unplaced (run : Text → List Value → World → Running) (c : Tree) :
    c.unplaced.rowsIn run = c.rowsIn run := by
  rw [rowsIn, rowsIn, deeds_unplaced]

end Tree

/-! ### Lines and their calls -/

/-- The calls of a line, wherever in it they stand. -/
def unplacedCalls (line : Text) : List Tree := (treeOf line).unplaced.items

theorem blocksOf_eq (run : Text → List Value → World → Running) (line : Text) :
    blocksOf run line = (unplacedCalls line).mapM (Tree.rowsIn run) := by
  rw [unplacedCalls, Tree.items, Tree.outermost_unplaced, List.mapM_map]
  simp only [Function.comp_def, Tree.rowsIn_unplaced]
  rfl

namespace CallLine

variable {line more : Text}

theorem of_unplacedCalls (hread : (Parse.read .command line).complaints = [])
    (h : ∀ x ∈ unplacedCalls line, x.rule? = some .call ∧ x.startsWithName = true) :
    CallLine line := by
  have hitems : ∀ x ∈ (treeOf line).items, x.rule? = some .call ∧ x.startsWithName = true := by
    intro x hx
    have hunplaced : x.unplaced ∈ unplacedCalls line := by
      rw [unplacedCalls, Tree.items, Tree.outermost_unplaced]
      exact List.mem_map_of_mem hx
    simpa using h _ hunplaced
  exact ⟨hread, fun x hx => (hitems x hx).1, fun x hx => (hitems x hx).2⟩

theorem of_mem_unplacedCalls (h : CallLine line) :
    ∀ x ∈ unplacedCalls line, x.rule? = some .call ∧ x.startsWithName = true := by
  intro x hx
  rw [unplacedCalls, Tree.items, Tree.outermost_unplaced] at hx
  obtain ⟨y, hy, rfl⟩ := List.mem_map.mp hx
  simpa using ⟨h.calls y hy, h.named y hy⟩

end CallLine

/-- The line is read to its end. -/
def ReadToEnd (line : Text) : Prop :=
  (Parse.read .command line).next = (Token.scan line).length

instance (line : Text) : Decidable (ReadToEnd line) :=
  inferInstanceAs (Decidable ((Parse.read .command line).next = (Token.scan line).length))

namespace CallLine

variable {line more : Text}

/-- With more behind it, a line that is read to its end is followed by the calls of the rest. -/
theorem join (h : CallLine line) (h' : CallLine more) (hend : ReadToEnd line)
    (run : Text → List Value → World → Running) :
    CallLine (line ++ ';' :: more) ∧
      blocksOf run (line ++ ';' :: more) = (do
        let first ← blocksOf run line
        let second ← blocksOf run more
        pure (first ++ second)) := by
  obtain ⟨c, ds, rest, hfirst⟩ := Parse.exists_consists h.complaints h.calls
  obtain ⟨d, es, rest', hsecond⟩ := Parse.exists_consists h'.complaints h'.calls
  have hnil : rest = [] := by
    have hlength := hfirst.read_eq.2.2
    rw [ReadToEnd] at hend
    exact List.length_eq_zero_iff.mp (by omega)
  subst hnil
  have hjoined := hfirst.join hsecond
  have hcalls : unplacedCalls (line ++ ';' :: more) =
      unplacedCalls line ++ unplacedCalls more := by
    rw [unplacedCalls, treeOf, hjoined.items_unplaced, List.map_append,
      unplacedCalls, treeOf, hfirst.items_unplaced, unplacedCalls, treeOf,
      hsecond.items_unplaced]
    rfl
  refine ⟨of_unplacedCalls hjoined.read_eq.1 ?_, ?_⟩
  · rw [hcalls]
    intro x hx
    rcases List.mem_append.mp hx with hx | hx
    · exact h.of_mem_unplacedCalls x hx
    · exact h'.of_mem_unplacedCalls x hx
  · rw [blocksOf_eq, hcalls, List.mapM_append, blocksOf_eq, blocksOf_eq]

/-- With more behind it, a line that is not read to its end comes to the same calls. -/
theorem stopped (h : CallLine line) (hend : ¬ ReadToEnd line) (more : Text)
    (run : Text → List Value → World → Running) :
    CallLine (line ++ ';' :: more) ∧ blocksOf run (line ++ ';' :: more) = blocksOf run line := by
  obtain ⟨c, ds, rest, hfirst⟩ := Parse.exists_consists h.complaints h.calls
  cases rest with
  | nil => exact absurd hfirst.read_eq.2.2 hend
  | cons t rest =>
      obtain ⟨rest', hjoined⟩ := hfirst.stopped more
      have hcalls : unplacedCalls (line ++ ';' :: more) =
          unplacedCalls line := by
        rw [unplacedCalls, treeOf, hjoined.items_unplaced,
          unplacedCalls, treeOf, hfirst.items_unplaced]
      refine ⟨of_unplacedCalls hjoined.read_eq.1 ?_, ?_⟩
      · rw [hcalls]
        exact h.of_mem_unplacedCalls
      · rw [blocksOf_eq, hcalls, blocksOf_eq]

end CallLine

end CommandShell
