import CommandShell.Proofs.Rows

/-! # Drafts of lines with back quotes

What stands between back quotes is run while a line is drafted, and the word that it gives depends
on the world at that moment. Making all substitutions first and following the notes then comes to
the same as making them on the way. -/

namespace CommandShell

/-! ### Substitutions first -/

namespace Drafting

/-- The word that a text with back quotes comes to. -/
def substitution (run : Text → List Value → World → Running) (t : Text) :
    EStateM Fault World Text := do
  match backQuoted? t with
  | none => throw .listIndex
  | some (before, line, after) =>
      let (out, w, fault) := run line [.text before] (← get)
      set w
      match fault with
      | some e => throw e
      | none =>
          match joined 0 (trimLast out ++ [.text after]) with
          | .ok word => pure word
          | .error e => throw e

/-- The note that a deed comes to. -/
def settle (run : Text → List Value → World → Running) : Deed → EStateM Fault World Note
  | .note n => pure n
  | .substitute t => Note.word <$> substitution run t

/-- What is made of a draft while the world changes. -/
def onto (x : Drafting Unit) (d : Draft) : EStateM Fault World Draft := fun w =>
  match x ⟨d, w⟩ with
  | .ok () c => .ok c.draft c.world
  | .error e c => .error e c.world

theorem onto_update (f : Draft → Draft) (d : Draft) : onto (update f) d = pure (f d) := rfl

theorem onto_bind (x y : Drafting Unit) (d : Draft) :
    onto (do x; y) d = (do let d' ← onto x d; onto y d') := by
  funext w
  simp only [onto, bind, EStateM.bind]
  cases x ⟨d, w⟩ with
  | ok u c => rfl
  | error e c => rfl

theorem modify_bind {α : Type} (g : DraftState → DraftState) (f : Unit → Drafting α)
    (c : DraftState) : (modify g >>= f) c = f () (g c) := rfl

theorem read_bind {α : Type} (f : World → EStateM Fault World α) (w : World) :
    (get >>= f) w = f w w := rfl

theorem write_bind {α : Type} (v : World) (f : Unit → EStateM Fault World α) (w : World) :
    (set v >>= f) w = f () v := rfl

variable {run : Text → List Value → World → Running} {rows : List (List Text)} {spare : Nat}
  {queue : List Plan}

section Substitution

variable {t before line after : Text} {w w' : World} {out : List Value}

theorem substitution_of_ok (hquoted : backQuoted? t = some (before, line, after))
    (hrun : run line [.text before] w = (out, w', none)) {word : Text}
    (hword : joined 0 (trimLast out ++ [.text after]) = .ok word) :
    substitution run t w = .ok word w' := by
  rw [substitution, hquoted]
  simp only [read_bind, write_bind, hrun, hword]
  rfl

theorem substitution_of_error (hquoted : backQuoted? t = some (before, line, after))
    (hrun : run line [.text before] w = (out, w', none)) {e : Fault}
    (hword : joined 0 (trimLast out ++ [.text after]) = .error e) :
    substitution run t w = .error e w' := by
  rw [substitution, hquoted]
  simp only [read_bind, write_bind, hrun, hword]
  rfl

end Substitution

theorem onto_performNote (h : rows ≠ []) (n : Note) :
    onto (performNote n) (.flat rows (rows.length + spare) queue) =
      pure (.flat (collect spare rows [n]).2
        ((collect spare rows [n]).2.length + (collect spare rows [n]).1) queue) := by
  funext w
  rw [onto, performNote_eq, Draft.note_flat h]
  rfl

theorem onto_substitute (h : rows ≠ []) (t : Text) :
    onto (substitute run t) (.flat rows (rows.length + spare) queue) = (do
      let word ← substitution run t
      pure (.flat (addToLast word rows) ((addToLast word rows).length + spare) queue)) := by
  have htree : (Draft.flat rows (rows.length + spare) queue).tree.isEmpty = false := by
    simpa [Draft.flat] using h
  have hrow : (Draft.flat rows (rows.length + spare) queue).currentRow?.isNone = false := by
    rw [Draft.currentRow?_flat h]
    rfl
  have hword : ∀ word, (Draft.flat rows (rows.length + spare) queue).addWord? word =
      some (.flat (addToLast word rows) (rows.length + spare) queue) := Draft.addWord?_flat h
  funext w
  rw [substitute, substitution]
  cases backQuoted? t with
  | none => rfl
  | some p =>
      obtain ⟨before, line, after⟩ := p
      generalize hr : run line [.text before] w = r
      obtain ⟨out, w', fault⟩ := r
      simp only [onto, bind_assoc, get_bind, modify_bind, read_bind, write_bind, hr]
      cases fault with
      | some e => rfl
      | none =>
          simp only [get_bind, htree, hrow, Bool.false_eq_true, if_false]
          cases joined 0 (trimLast out ++ [.text after]) with
          | error e => rfl
          | ok word =>
              simp only [addWord, get_bind, hword, length_addToLast]
              rfl

theorem onto_carryOut (h : rows ≠ []) (d : Deed) :
    onto (carryOut run d) (.flat rows (rows.length + spare) queue) = (do
      let n ← settle run d
      pure (.flat (collect spare rows [n]).2
        ((collect spare rows [n]).2.length + (collect spare rows [n]).1) queue)) := by
  cases d with
  | note n => rw [carryOut, settle, onto_performNote h, pure_bind]
  | substitute t =>
      rw [carryOut, settle, onto_substitute h, map_eq_pure_bind, bind_assoc]
      refine bind_congr fun word => ?_
      rw [pure_bind]
      rfl

/-- Carrying out deeds is following the notes that they come to. -/
theorem onto_carryOutAll (h : rows ≠ []) (ds : List Deed) :
    onto (carryOutAll run ds) (.flat rows (rows.length + spare) queue) = (do
      let notes ← ds.mapM (settle run)
      pure (.flat (collect spare rows notes).2
        ((collect spare rows notes).2.length + (collect spare rows notes).1) queue)) := by
  induction ds generalizing rows spare with
  | nil => rfl
  | cons d ds ih =>
      rw [carryOutAll, onto_bind, onto_carryOut h, bind_assoc, List.mapM_cons, bind_assoc]
      refine bind_congr fun n => ?_
      rw [pure_bind, ih (collect_ne_nil h spare [n]), bind_assoc]
      refine bind_congr fun notes => ?_
      have hstep := collect_append spare rows [n] notes
      rw [List.singleton_append] at hstep
      rw [pure_bind, hstep]

end Drafting

/-! ### The rows of calls -/

namespace Deed

/-- Deeds from inside a call whose redirections have certain operators. -/
def Within (signs : List Text) : Deed → Prop
  | .note .expected => False
  | .note (.redirection s) => s ∈ Tree.operators ∧ s ∈ signs
  | _ => True

theorem Within.mono {signs signs' : List Text} {d : Deed} (h : d.Within signs)
    (hs : signs ⊆ signs') : d.Within signs' := by
  match d, h with
  | .note (.redirection s), h => exact ⟨h.1, hs h.2⟩
  | .note (.argument t), _ => trivial
  | .note (.word t), _ => trivial
  | .substitute t, _ => trivial

end Deed

namespace Tree

/-- The operators of the redirections in a tree. -/
def signs (t : Tree) : List Text := t.redirections.map sign

theorem outermostAll_eq_flatMap (rs : List Rule) (ts : List Tree) :
    outermostAll rs ts = ts.flatMap (outermost rs) := by
  induction ts with
  | nil => rfl
  | cons t ts ih => rw [outermostAll_cons, ih, List.flatMap_cons]

theorem mem_outermostAll {rs : List Rule} {kids : List Tree} {y : Tree} :
    y ∈ outermostAll rs kids ↔ ∃ x ∈ kids, y ∈ outermost rs x := by
  rw [outermostAll_eq_flatMap, List.mem_flatMap]

theorem signs_kid {r : Rule} {kids : List Tree} (hr : r ≠ .redirection) {x : Tree}
    (hx : x ∈ kids) : x.signs ⊆ signs (.node r kids) := by
  apply List.map_subset
  intro y hy
  rw [redirections, outermost_node, if_neg (by simpa using hr)]
  exact mem_outermostAll.mpr ⟨x, hx, hy⟩

theorem mem_deedsAll {kids : List Tree} {d : Deed} :
    d ∈ deedsAll kids ↔ ∃ x ∈ kids, d ∈ x.deeds := by
  rw [deedsAll_eq_flatMap, List.mem_flatMap]

theorem IsLeaf.within {ks : List Kind} {x : Tree} (h : IsLeaf ks x) {signs : List Text} :
    ∀ d ∈ x.deeds, d.Within signs := by
  obtain ⟨hk⟩ := h
  simp

theorem IsPiece.within {p : Tree} (h : IsPiece p) {signs : List Text} :
    ∀ d ∈ p.deeds, d.Within signs := by
  have hword : ∀ t : Text, Deed.Within signs (.note (.word t)) := fun _ => trivial
  have hsubstitute : ∀ t : Text, Deed.Within signs (.substitute t) := fun _ => trivial
  rcases h with h | h
  · cases h with
    | single h =>
        obtain ⟨ha, hi, hb⟩ := h
        simpa using hword _
    | double h =>
        obtain ⟨hw, ha, hi, hb, hv⟩ := h
        rw [deeds_quoted, deedsAll_cons, deeds_doubleQuoted]
        split
        · simpa using hsubstitute _
        · simpa using hword _
    | back h =>
        obtain ⟨hw, ha, hi, hb, hv⟩ := h
        simpa using hsubstitute _
  · obtain ⟨ha⟩ := h
    simpa using hword _

theorem IsArgument.within {t : Tree} (h : IsArgument t) {signs : List Text} :
    ∀ d ∈ t.deeds, d.Within signs := by
  obtain ⟨hps⟩ := h
  intro d hd
  rcases List.mem_cons.mp hd with rfl | hd
  · trivial
  · obtain ⟨q, hq, hd⟩ := mem_deedsAll.mp hd
    exact (hps q hq).within d hd

theorem IsRedirection.within {t : Tree} (h : IsRedirection t) (hs : Scanned t) :
    ∀ d ∈ t.deeds, d.Within t.signs := by
  have hsign := (h.redirectionSign_eq hs).2
  obtain ⟨kids, rfl, hk⟩ := h.kids_cases
  intro d hd
  rcases List.mem_cons.mp hd with rfl | hd
  · exact ⟨hsign, List.mem_singleton_self _⟩
  · obtain ⟨x, hx, hd⟩ := mem_deedsAll.mp hd
    rcases hk x hx with ⟨ks, hl⟩ | ha
    · exact hl.within d hd
    · exact ha.within d hd

theorem within_of_kid {r : Rule} {kids : List Tree} (hr : r ≠ .redirection) {x : Tree}
    (hx : x ∈ kids) (h : ∀ d ∈ x.deeds, d.Within x.signs) :
    ∀ d ∈ x.deeds, d.Within (signs (.node r kids)) :=
  fun d hd => (h d hd).mono (signs_kid hr hx)

theorem IsAtom.within {t : Tree} (h : IsAtom t) (hs : Scanned t) :
    ∀ d ∈ t.deeds, d.Within t.signs := by
  have hkid : ∀ {x : Tree}, (∀ d ∈ x.deeds, d.Within x.signs) →
      ∀ d ∈ deeds (.node .atom [x]), d.Within (signs (.node .atom [x])) := by
    intro x hx d hd
    rw [deeds_atom, deedsAll_cons, deedsAll_nil, List.append_nil] at hd
    exact within_of_kid (by decide) (List.mem_singleton_self x) hx d hd
  cases h with
  | redirection h => exact hkid (h.within (hs.kid (List.mem_singleton_self _)))
  | argument h => exact hkid h.within

/-- Every redirection of an atom is among its deeds. -/
theorem IsAtom.redirection_mem {t : Tree} (h : IsAtom t) :
    ∀ r ∈ t.redirections, Deed.note (.redirection r.sign) ∈ t.deeds := by
  cases h with
  | redirection h =>
      obtain ⟨kids, rfl, -⟩ := h.kids_cases
      have hself : redirections (.node .atom [.node .redirection kids]) =
          [.node .redirection kids] := rfl
      intro r hr
      rw [hself, List.mem_singleton] at hr
      subst hr
      simp
  | argument h =>
      intro r hr
      have hnil : redirections (.node .atom [_]) = [] :=
        outermost_eq_nil (by decide) (by simpa using h.outermost_eq (by decide))
      rw [hnil] at hr
      cases hr

/-- A call that starts with a name: the deeds of the name, and the others. -/
structure Headed (c : Tree) (name : Text) (rest : List Deed) : Prop where
  isName : Application.isName name = true
  deeds : c.deeds =
    .note .expected :: .note (.argument name) :: .note (.word name) :: rest
  redirection_mem : ∀ r ∈ c.redirections, Deed.note (.redirection r.sign) ∈ rest
  rest : ∀ d ∈ rest, d.Within c.signs

theorem IsCall.exists_headed {c : Tree} (h : IsCall c) (hs : Scanned c)
    (hn : c.startsWithName = true) : ∃ name rest, Headed c name rest := by
  obtain ⟨lead, x, tails, trail, rfl, hl, hx, hname, ht, hr⟩ := h.named_parts hn
  obtain ⟨a, rfl, hatext⟩ := hx.eq_of_isName (hs.kid (by simp)) hname
  have hlead : deedsAll lead = [] := by
    rcases hl with rfl | ⟨g, ⟨hg⟩, rfl⟩ <;> rfl
  refine ⟨a.text, deedsAll (paired tails ++ trail), by rwa [hatext], ?_, ?_, ?_⟩
  · rw [deeds_call, deedsAll_eq_flatMap, List.flatMap_append, ← deedsAll_eq_flatMap, hlead,
      ← deedsAll_eq_flatMap]
    simp
  · intro r hred
    have hgap : ∀ y, IsGap y → r ∉ y.redirections := by
      intro y hy hmem
      rw [redirections, IsLeaf.outermost_eq hy] at hmem
      cases hmem
    rw [redirections, outermost_node, if_neg (by decide)] at hred
    obtain ⟨y, hy, hry⟩ := mem_outermostAll.mp hred
    rcases List.mem_append.mp hy with hy | hy
    · exact absurd hry (hgap y (hl.of_mem hy))
    · rcases List.mem_cons.mp hy with rfl | hy
      · rw [hx.outermost_eq (by decide)] at hry
        cases hry
      · refine mem_deedsAll.mpr ⟨y, hy, ?_⟩
        rcases List.mem_append.mp hy with hy | hy
        · obtain ⟨p, hpm, rfl | rfl⟩ := mem_paired hy
          · exact absurd hry (hgap _ (ht p hpm).1)
          · exact (ht p hpm).2.redirection_mem r hry
        · exact absurd hry (hgap y (hr.of_mem hy))
  · intro d hd
    obtain ⟨y, hy, hd⟩ := mem_deedsAll.mp hd
    have hmem : y ∈ lead ++ .node .argument [.node .unquoted [.leaf a]] :: (paired tails ++ trail) :=
      List.mem_append_right _ (List.mem_cons_of_mem _ hy)
    refine within_of_kid (by decide) hmem ?_ d hd
    rcases List.mem_append.mp hy with hy | hy
    · obtain ⟨p, hpm, rfl | rfl⟩ := mem_paired hy
      · exact (ht p hpm).1.within
      · exact (ht p hpm).2.within (hs.kid hmem)
    · exact (hr.of_mem hy).within

end Tree

end CommandShell
