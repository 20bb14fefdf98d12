import CommandShell.Proofs.Deeds

/-! # What lasts while lines are run

A line changes the world by what its applications do, by the files to which output is redirected and
by what is printed. A property of worlds that none of these ends lasts while a line is run, with all
the lines between back quotes in it. -/

namespace CommandShell

/-- A property of worlds that nothing ends. -/
structure World.Lasting (P : World → Prop) : Prop where
  print : ∀ {w : World} (t : Text), P w → P (w.print t)
  warn : ∀ {w : World} (t : Text), P w → P (w.warn t)
  write : ∀ {w w' : World} {path : Text} {append : Bool} {t : Text},
    w.writeText path append t = .ok w' → P w → P w'
  exec : ∀ {w : World} (a : Application) (args : List Value), P w → P (a.exec args w).world

namespace World.Lasting

variable {P : World → Prop} {w : World}

/-! ### Commands -/

section Commands

open Command

theorem runRow (h : Lasting P) (row : Row) (input : List Value) (hw : P w) :
    P (runRow row input w).world := by
  have hguarded : ∀ e : Effect, P e.world → P e.guarded.world := by
    intro e he
    unfold Effect.guarded
    split
    · exact h.print _ he
    · exact he
  unfold Command.runRow
  split
  · exact hw
  · split
    · exact hw
    · split
      · exact hw
      · split
        · exact hguarded _ (h.exec _ _ hw)
        · exact h.exec _ _ hw

theorem writeOutput (h : Lasting P) (file : Value) (append : Bool) (out : List Value) (hw : P w) :
    P (writeOutput w file append out).2.1 := by
  unfold Command.writeOutput
  split
  · exact hw
  · split
    · exact hw
    · split
      · exact hw
      next hwrite => exact h.write hwrite hw

theorem redirect (h : Lasting P) (rows : List Row) (out : List Value) (hw : P w) :
    P (redirect rows out w).2.1 := by
  unfold Command.redirect
  split
  · split
    · split
      · exact hw
      · exact h.writeOutput _ _ _ hw
      · exact hw
    · exact hw
  · exact hw

theorem call (h : Lasting P) (rows : List Row) (input out : List Value) (hw : P w) :
    P (call rows input out w).world := by
  unfold Command.call
  dsimp only
  split
  · exact hw
  · split
    · exact hw
    · have heffect := h.runRow
        ((expandRows w (remaining rows (takeInput w rows input).taken)).1.headD [])
        (takeInput w rows input).input hw
      split
      · exact heffect
      · exact h.redirect _ _ heffect

theorem runSequence (h : Lasting P) (calls : List (List Row)) (input out : List Value)
    (hw : P w) : P (runSequence calls input out w).world := by
  induction calls generalizing input out w with
  | nil => exact hw
  | cons c cs ih =>
      have hcall := h.call c input out hw
      unfold Command.runSequence
      dsimp only
      split
      · exact hcall
      · exact ih _ _ hcall

theorem runPipe (h : Lasting P) (calls : List (List Row)) (input out : List Value) (hw : P w) :
    P (runPipe calls input out w).world := by
  induction calls generalizing input out w with
  | nil => exact hw
  | cons c cs ih =>
      have hcall := h.call c [.list input] [] hw
      unfold Command.runPipe
      dsimp only
      split
      · exact hcall
      · exact ih _ _ hcall

theorem run (h : Lasting P) (form : Form) (rows : List Row) (input out : List Value) (hw : P w) :
    P (run form rows input out w).world := by
  have hleft : ∀ left (r : Outcome), (withLeft left r).world = r.world := by
    intro left r
    cases left <;> rfl
  cases form with
  | call => exact h.call rows input out hw
  | sequence =>
      change P (withLeft _ _).world
      rw [hleft]
      exact h.runSequence _ _ _ hw
  | pipe =>
      change P (withLeft _ _).world
      rw [hleft]
      exact h.runPipe _ _ _ hw

theorem runFrom (h : Lasting P) (rows : List Row) (input final out : List Value)
    (commands : List (Form × List Nat)) (hw : P w) :
    P (Script.runFrom rows input final out w commands).2.1 := by
  induction commands generalizing rows input final out w with
  | nil => exact hw
  | cons command rest ih =>
      obtain ⟨form, ids⟩ := command
      have hrun := h.run form (Script.rowsAt ⟨rows, []⟩ ids) input final hw
      unfold Script.runFrom
      dsimp only
      split
      · exact hrun
      · exact ih _ _ _ _ hrun

end Commands

end World.Lasting

/-! ### Drafting -/

namespace Drafting

/-- A step of drafting that does not end a property, whether it fails or not. -/
def Keeps {α : Type} (P : World → Prop) (x : Drafting α) : Prop :=
  ∀ c, P c.world → match x c with
    | .ok _ c' => P c'.world
    | .error _ c' => P c'.world

section Keeps

variable {α β : Type} {P : World → Prop}

theorem keeps_pure (a : α) : Keeps P (pure a : Drafting α) := fun _ hc => hc

theorem keeps_throw (e : Fault) : Keeps P (throw e : Drafting α) := fun _ hc => hc

theorem keeps_update (f : Draft → Draft) : Keeps P (update f) := fun _ hc => hc

theorem Keeps.bind {x : Drafting α} {f : α → Drafting β} (hx : Keeps P x)
    (hf : ∀ a, Keeps P (f a)) : Keeps P (x >>= f) := by
  intro c hc
  have hstep := hx c hc
  simp only [Bind.bind, EStateM.bind]
  cases hresult : x c with
  | error e c' => simpa only [hresult] using hstep
  | ok a c' => exact hf a c' (by simpa only [hresult] using hstep)

/-- The state that is read has the property as well. -/
theorem keeps_get {f : DraftState → Drafting α} (hf : ∀ c, P c.world → Keeps P (f c)) :
    Keeps P (get >>= f) := fun c hc => hf c hc c hc

theorem keeps_setWorld {w : World} (hw : P w) :
    Keeps P (modify fun c => { c with world := w } : Drafting Unit) := fun _ _ => hw

theorem keeps_addWord (word : Text) : Keeps P (addWord word) := by
  refine keeps_get fun c _ => ?_
  cases c.draft.addWord? word with
  | none => exact keeps_throw _
  | some d => exact keeps_update _

theorem keeps_startRow (t : Text) : Keeps P (startRow t) := by
  refine keeps_get fun c _ => ?_
  dsimp only
  split
  · exact keeps_update _
  · exact keeps_pure _

/-- A step for which a first row is made and a row has to be there. -/
theorem Keeps.inRow {x : Drafting Unit} (hx : Keeps P x) : Keeps P (do
    if (← get).draft.tree.isEmpty then update (·.openRow [])
    if (← get).draft.currentRow?.isNone then throw .listIndex
    x) := by
  have hrow : Keeps P (do
      if (← get).draft.currentRow?.isNone then throw .listIndex
      x) := by
    refine keeps_get fun c _ => ?_
    dsimp only
    split
    · exact (keeps_throw _).bind fun _ => hx
    · exact hx
  refine keeps_get fun c _ => ?_
  dsimp only
  split
  · exact (keeps_update _).bind fun _ => hrow
  · exact hrow

variable {run : Text → List Value → World → Running}

/-- The line between back quotes is run by `run`. -/
theorem keeps_substitute (hrun : ∀ line out w, P w → P (run line out w).2.1) (t : Text) :
    Keeps P (substitute run t) := by
  unfold substitute
  cases backQuoted? t with
  | none => exact keeps_throw _
  | some parts =>
      obtain ⟨before, line, after⟩ := parts
      -- The line is run in the world that has been read, so the property has to be known of that.
      refine keeps_get fun c hc => ?_
      refine (keeps_setWorld (hrun line [.text before] c.world hc)).bind fun _ => ?_
      cases (run line [.text before] c.world).2.2 with
      | some e => exact keeps_throw e
      | none =>
          cases joined 0 (trimLast (run line [.text before] c.world).1 ++ [.text after]) with
          | ok word => exact (keeps_addWord word).inRow
          | error e => exact (keeps_throw e).inRow

theorem keeps_walkAll {kids : List Tree} (h : ∀ x ∈ kids, Keeps P (walk run x)) :
    Keeps P (walkAll run kids) := by
  induction kids with
  | nil => exact keeps_pure ()
  | cons x xs ih =>
      obtain ⟨hx, hxs⟩ := List.forall_mem_cons.mp h
      exact hx.bind fun _ => ih hxs

/-- A walk over a tree only runs the lines between back quotes. -/
theorem keeps_walk (hrun : ∀ line out w, P w → P (run line out w).2.1) (t : Tree) :
    Keeps P (walk run t) := by
  induction t using Tree.induction_kids with
  | leaf t => exact keeps_pure ()
  | skipped t => exact keeps_pure ()
  | missing k => exact keeps_pure ()
  | node r kids ih =>
      have hkids := keeps_walkAll ih
      have hexpect : ∀ {x : Drafting Unit}, Keeps P x →
          Keeps P (do update (·.expectRow); x) := fun hx => (keeps_update _).bind fun _ => hx
      cases r with
      | line | atom | quoted => exact hkids
      | pipe | call => exact hexpect hkids
      | unquoted | singleQuoted => exact keeps_addWord _
      | backQuoted => exact keeps_substitute hrun _
      | argument => exact (keeps_startRow _).bind fun _ => hkids
      | doubleQuoted =>
          rw [walk_doubleQuoted]
          split
          · exact keeps_substitute hrun _
          · exact keeps_addWord _
      | redirection =>
          refine hexpect ?_
          cases redirectionSign (Tree.textAll kids) with
          | error e => exact (keeps_throw e).bind fun _ => hkids
          | ok sign => exact (keeps_update _).bind fun _ => hkids
      | command =>
          rw [walk_command]
          split
          · exact hkids.bind fun _ => keeps_update _
          · split
            · exact keeps_get fun _ _ => hexpect (hkids.bind fun _ => keeps_update _)
            · exact hkids

end Keeps

end Drafting

/-! ### Lines -/

namespace World.Lasting

variable {P : World → Prop} {w : World}

theorem draftWith (h : Lasting P) {run : Text → List Value → World → Running}
    (hrun : ∀ line out w, P w → P (run line out w).2.1) (line : Text) (hw : P w) :
    P (draftWith run line w).world := by
  have hwalk := Drafting.keeps_walk hrun (Parse.read .command line).tree
    ⟨Draft.empty, w.warn ((Parse.read .command line).complaints.flatMap Complaint.report)⟩
    (h.warn _ hw)
  unfold CommandShell.draftWith
  dsimp only
  split
  next hok => simpa only [hok] using hwalk
  next herror => simpa only [herror] using hwalk

theorem runWith (h : Lasting P) {run : Text → List Value → World → Running}
    (hrun : ∀ line out w, P w → P (run line out w).2.1) (line : Text) (out : List Value)
    (hw : P w) : P (runWith run line out w).2.1 := by
  have hdraft := h.draftWith hrun line hw
  unfold CommandShell.runWith
  dsimp only
  split
  · exact hdraft
  · exact h.runFrom _ _ _ _ _ hdraft

/-- A property that nothing ends lasts while a line is run. -/
theorem runLine (h : Lasting P) (line : Text) (out : List Value) (hw : P w) :
    P (runLine line out w).2.1 := by
  have hplain : ∀ line out w, P w → P (runPlain line out w).2.1 :=
    fun line out _ => h.runWith (fun _ _ _ hw => hw) line out
  exact h.runWith hplain line out hw

end World.Lasting

end CommandShell
