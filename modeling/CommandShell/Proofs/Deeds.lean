import CommandShell.Line
import CommandShell.Proofs.Items

/-! # What is done for a tree

A tree says in advance what is done when it is walked: notes that are followed, and texts with back
quotes that are substituted. Without back quotes there are only the notes. -/

namespace CommandShell

namespace Drafting

section Equations

variable (run : Text → List Value → World → Running) (kids : List Tree)

@[simp] theorem walk_leaf (t : Token) : walk run (.leaf t) = pure () := rfl

theorem walk_command : walk run (.node .command kids) = (do
    if kids.any (fun k => k.rule? = some .command) then
      walkAll run kids
      update (·.closeSequence)
    else if kids.any (fun k => k.rule? = some .pipe) then
      let start := (← get).draft.tree.length
      update (·.expectRow)
      walkAll run kids
      update (·.closePipe start)
    else walkAll run kids) := rfl

@[simp] theorem walk_pipe :
    walk run (.node .pipe kids) = (do update (·.expectRow); walkAll run kids) := rfl

@[simp] theorem walk_call :
    walk run (.node .call kids) = (do update (·.expectRow); walkAll run kids) := rfl

@[simp] theorem walk_atom : walk run (.node .atom kids) = walkAll run kids := rfl

@[simp] theorem walk_argument : walk run (.node .argument kids) =
    (do startRow (Tree.textAll kids); walkAll run kids) := rfl

theorem walk_redirection {sign : Text} (h : redirectionSign (Tree.textAll kids) = .ok sign) :
    walk run (.node .redirection kids) =
      (do update (·.expectRow); update (·.openRow [sign]); walkAll run kids) := by
  refine bind_congr fun _ => ?_
  rw [h]

@[simp] theorem walk_unquoted :
    walk run (.node .unquoted kids) = addWord (Tree.textAll kids) := rfl

@[simp] theorem walk_quoted : walk run (.node .quoted kids) = walkAll run kids := rfl

@[simp] theorem walk_singleQuoted :
    walk run (.node .singleQuoted kids) = addWord (Tree.textAll kids) := rfl

theorem walk_doubleQuoted : walk run (.node .doubleQuoted kids) =
    if (Tree.textAll kids).contains Text.backQuote then substitute run (Tree.textAll kids)
    else addWord ((Tree.textAll kids).filter (· ≠ Text.doubleQuote)) := rfl

@[simp] theorem walkAll_nil : walkAll run [] = pure () := rfl

@[simp] theorem walkAll_cons (t : Tree) (ts : List Tree) :
    walkAll run (t :: ts) = (do walk run t; walkAll run ts) := rfl

end Equations

def performNote : Note → Drafting Unit
  | .expected => update (·.expectRow)
  | .redirection sign => do
      update (·.expectRow)
      update (·.openRow [sign])
  | .argument t => startRow t
  | .word t => addWord t

def perform : List Note → Drafting Unit
  | [] => pure ()
  | n :: notes => do
      performNote n
      perform notes

theorem perform_append (xs ys : List Note) :
    perform (xs ++ ys) = (do perform xs; perform ys) := by
  induction xs with
  | nil => simp [perform]
  | cons n xs ih => simp [perform, ih]

end Drafting

/-- What is done at a part of a tree. -/
inductive Deed where
  | note (n : Note)
  /-- Run what is between the back quotes of the text. -/
  | substitute (t : Text)
deriving DecidableEq, Repr

namespace Tree

/-- What holds of leaves, and of nodes when it holds of their kids, holds of every tree. -/
@[elab_as_elim]
theorem induction_kids {motive : Tree → Prop} (leaf : ∀ t, motive (.leaf t))
    (skipped : ∀ t, motive (.skipped t)) (missing : ∀ k, motive (.missing k))
    (node : ∀ r kids, (∀ x ∈ kids, motive x) → motive (.node r kids)) : ∀ t, motive t
  | .leaf t => leaf t
  | .skipped t => skipped t
  | .missing k => missing k
  | .node r kids => node r kids fun x _ => induction_kids leaf skipped missing node x

mutual
def deeds : Tree → List Deed
  | .leaf _ => []
  | .skipped _ => []
  | .missing _ => []
  | .node r kids =>
      match r with
      | .pipe => .note .expected :: deedsAll kids
      | .call => .note .expected :: deedsAll kids
      | .redirection => .note (.redirection (sign (.node r kids))) :: deedsAll kids
      | .argument => .note (.argument (textAll kids)) :: deedsAll kids
      | .unquoted => [.note (.word (textAll kids))]
      | .singleQuoted => [.note (.word (textAll kids))]
      | .backQuoted => [.substitute (textAll kids)]
      | .doubleQuoted =>
          [if (textAll kids).contains Text.backQuote then .substitute (textAll kids)
            else .note (.word ((textAll kids).filter (· ≠ Text.doubleQuote)))]
      | _ => deedsAll kids

def deedsAll : List Tree → List Deed
  | [] => []
  | t :: ts => deeds t ++ deedsAll ts
end

section Equations

variable (kids : List Tree)

@[simp] theorem deeds_leaf (t : Token) : deeds (.leaf t) = [] := rfl

@[simp] theorem deeds_call : deeds (.node .call kids) = .note .expected :: deedsAll kids := rfl

@[simp] theorem deeds_redirection : deeds (.node .redirection kids) =
    .note (.redirection (sign (.node .redirection kids))) :: deedsAll kids := rfl

@[simp] theorem deeds_argument : deeds (.node .argument kids) =
    .note (.argument (textAll kids)) :: deedsAll kids := rfl

@[simp] theorem deeds_unquoted :
    deeds (.node .unquoted kids) = [.note (.word (textAll kids))] := rfl

@[simp] theorem deeds_singleQuoted :
    deeds (.node .singleQuoted kids) = [.note (.word (textAll kids))] := rfl

@[simp] theorem deeds_backQuoted :
    deeds (.node .backQuoted kids) = [.substitute (textAll kids)] := rfl

theorem deeds_doubleQuoted : deeds (.node .doubleQuoted kids) =
    [if (textAll kids).contains Text.backQuote then .substitute (textAll kids)
      else .note (.word ((textAll kids).filter (· ≠ Text.doubleQuote)))] := rfl

@[simp] theorem deeds_quoted : deeds (.node .quoted kids) = deedsAll kids := rfl

@[simp] theorem deeds_atom : deeds (.node .atom kids) = deedsAll kids := rfl

@[simp] theorem deedsAll_nil : deedsAll [] = [] := rfl

@[simp] theorem deedsAll_cons (t : Tree) (ts : List Tree) :
    deedsAll (t :: ts) = deeds t ++ deedsAll ts := rfl

theorem deedsAll_eq_flatMap (ts : List Tree) : deedsAll ts = ts.flatMap deeds := by
  induction ts with
  | nil => rfl
  | cons t ts ih => rw [deedsAll_cons, ih, List.flatMap_cons]

end Equations

end Tree

/-! ### Walking is carrying out the deeds -/

namespace Drafting

variable (run : Text → List Value → World → Running)

def carryOut : Deed → Drafting Unit
  | .note n => performNote n
  | .substitute t => substitute run t

def carryOutAll : List Deed → Drafting Unit
  | [] => pure ()
  | d :: ds => do
      carryOut run d
      carryOutAll ds

theorem carryOutAll_append (xs ys : List Deed) :
    carryOutAll run (xs ++ ys) = (do carryOutAll run xs; carryOutAll run ys) := by
  induction xs with
  | nil => simp [carryOutAll]
  | cons d xs ih => simp [carryOutAll, ih]

theorem carryOutAll_singleton (d : Deed) : carryOutAll run [d] = carryOut run d := by
  simp [carryOutAll]

variable {run}

theorem carryOutAll_notes (notes : List Note) :
    carryOutAll run (notes.map .note) = perform notes := by
  induction notes with
  | nil => rfl
  | cons n notes ih => rw [List.map_cons, carryOutAll, ih, perform, carryOut]

theorem walkAll_deeds {kids : List Tree} (h : ∀ x ∈ kids, walk run x = carryOutAll run x.deeds) :
    walkAll run kids = carryOutAll run (Tree.deedsAll kids) := by
  induction kids with
  | nil => rfl
  | cons x xs ih =>
      rw [walkAll_cons, Tree.deedsAll_cons, carryOutAll_append, h x (by simp),
        ih fun y hy => h y (by simp [hy])]

end Drafting

namespace Tree

open Drafting

variable {run : Text → List Value → World → Running}

theorem IsLeaf.walk_deeds {ks : List Kind} {x : Tree} (h : IsLeaf ks x) :
    walk run x = carryOutAll run x.deeds := by
  obtain ⟨hk⟩ := h
  rfl

theorem IsPiece.walk_deeds {t : Tree} (h : IsPiece t) : walk run t = carryOutAll run t.deeds := by
  rcases h with h | h
  · have hquoted : ∀ x : Tree, walk run x = carryOutAll run x.deeds →
        walk run (.node .quoted [x]) = carryOutAll run (deeds (.node .quoted [x])) := by
      intro x hx
      simp [hx]
    cases h with
    | single h =>
        obtain ⟨ha, hi, hb⟩ := h
        apply hquoted
        rw [deeds_singleQuoted, carryOutAll_singleton]
        rfl
    | double h =>
        obtain ⟨hw, ha, hi, hb, hv⟩ := h
        apply hquoted
        rw [deeds_doubleQuoted, carryOutAll_singleton, walk_doubleQuoted]
        split <;> rfl
    | back h =>
        obtain ⟨hw, ha, hi, hb, hv⟩ := h
        apply hquoted
        rw [deeds_backQuoted, carryOutAll_singleton]
        rfl
  · obtain ⟨ha⟩ := h
    rw [deeds_unquoted, carryOutAll_singleton]
    rfl

theorem IsArgument.walk_deeds {t : Tree} (h : IsArgument t) :
    walk run t = carryOutAll run t.deeds := by
  obtain ⟨hps⟩ := h
  rw [walk_argument, walkAll_deeds fun q hq => (hps q hq).walk_deeds]
  rfl

theorem IsRedirection.walk_deeds {t : Tree} (h : IsRedirection t) (hs : Scanned t) :
    walk run t = carryOutAll run t.deeds := by
  have hsign := (h.redirectionSign_eq hs).1
  obtain ⟨kids, rfl, hk⟩ := h.kids_cases
  have hkids : walkAll run kids = carryOutAll run (deedsAll kids) := by
    apply walkAll_deeds
    intro x hx
    rcases hk x hx with ⟨ks, hl⟩ | ha
    · exact hl.walk_deeds
    · exact ha.walk_deeds
  rw [text_node] at hsign
  rw [walk_redirection run kids hsign, hkids, deeds_redirection, carryOutAll, carryOut, performNote]
  simp

theorem IsAtom.walk_deeds {t : Tree} (h : IsAtom t) (hs : Scanned t) :
    walk run t = carryOutAll run t.deeds := by
  cases h with
  | redirection h => simp [h.walk_deeds (hs.kid (List.mem_singleton.mpr rfl))]
  | argument h => simp [h.walk_deeds]

theorem IsCall.walk_deeds {c : Tree} (h : IsCall c) (hs : Scanned c) :
    walk run c = carryOutAll run c.deeds := by
  obtain ⟨kids, rfl, hk⟩ := h.kids_cases
  rw [walk_call, deeds_call, carryOutAll, walkAll_deeds]
  · rfl
  · intro x hx
    rcases hk x hx with ⟨ks, h⟩ | h | h | h
    · exact h.walk_deeds
    · exact h.walk_deeds (hs.kid hx)
    · exact h.walk_deeds
    · exact h.walk_deeds (hs.kid hx)

/-! ### Without back quotes -/

theorem deedsAll_of_notes {kids : List Tree} (h : ∀ x ∈ kids, x.deeds = x.notes.map Deed.note) :
    deedsAll kids = (notesAll kids).map Deed.note := by
  induction kids with
  | nil => rfl
  | cons x xs ih =>
      rw [deedsAll_cons, notesAll_cons, h x (by simp), ih fun y hy => h y (by simp [hy]),
        List.map_append]

theorem IsLeaf.deeds_eq {ks : List Kind} {x : Tree} (h : IsLeaf ks x) :
    x.deeds = x.notes.map Deed.note := by
  obtain ⟨hk⟩ := h
  rfl

theorem IsPiece.deeds_eq {t : Tree} (h : IsPiece t) (hp : Plain t) :
    t.deeds = t.notes.map Deed.note := by
  rcases h with h | h
  · cases h with
    | single h =>
        obtain ⟨kids, rfl, _⟩ := h.leaves
        simp
    | double h =>
        have hpk := hp.kid (List.mem_singleton.mpr rfl)
        have hback := h.backQuote_notMem hpk
        obtain ⟨kids, rfl, _⟩ := h.leaves hpk
        rw [text_node] at hback
        simp [deeds_doubleQuoted, hback]
    | back h => exact absurd (hp.kid (List.mem_singleton.mpr rfl)) h.not_plain
  · obtain ⟨kids, rfl, _⟩ := h.leaves
    simp

theorem IsArgument.deeds_eq {t : Tree} (h : IsArgument t) (hp : Plain t) :
    t.deeds = t.notes.map Deed.note := by
  obtain ⟨hps⟩ := h
  rw [deeds_argument, notes_argument, deedsAll_of_notes fun q hq => (hps q hq).deeds_eq (hp.kid hq),
    List.map_cons]

theorem IsRedirection.deeds_eq {t : Tree} (h : IsRedirection t) (hp : Plain t) :
    t.deeds = t.notes.map Deed.note := by
  obtain ⟨kids, rfl, hk⟩ := h.kids_cases
  have hkids : deedsAll kids = (notesAll kids).map Deed.note := by
    apply deedsAll_of_notes
    intro x hx
    rcases hk x hx with ⟨ks, hl⟩ | ha
    · exact hl.deeds_eq
    · exact ha.deeds_eq (hp.kid hx)
  simp [hkids]

theorem IsAtom.deeds_eq {t : Tree} (h : IsAtom t) (hp : Plain t) :
    t.deeds = t.notes.map Deed.note := by
  cases h with
  | redirection h => simp [h.deeds_eq (hp.kid (List.mem_singleton.mpr rfl))]
  | argument h => simp [h.deeds_eq (hp.kid (List.mem_singleton.mpr rfl))]

theorem IsCall.deeds_eq {c : Tree} (h : IsCall c) (hp : Plain c) :
    c.deeds = c.notes.map Deed.note := by
  obtain ⟨kids, rfl, hk⟩ := h.kids_cases
  rw [deeds_call, notes_call, deedsAll_of_notes, List.map_cons]
  intro x hx
  have hpx := hp.kid hx
  rcases hk x hx with ⟨ks, h⟩ | h | h | h
  · exact h.deeds_eq
  · exact h.deeds_eq hpx
  · exact h.deeds_eq hpx
  · exact h.deeds_eq hpx

end Tree

end CommandShell
