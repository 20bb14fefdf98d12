import CommandShell.Proofs.Exactness
import CommandShell.Proofs.Positions

/-! # Readings of tokens that are alike

Let tokens be looked at in a way that shows their kinds, and perhaps less of all else. Two texts
whose tokens look the same are read in the same way: if the one is read without a complaint, so is
the other, just as far, and to a tree that looks the same. -/

namespace CommandShell

namespace Parse

open CommandShell.Tree Grammar Spelling

variable {φ : Token → Token}

/-- Frames at one place of the grammar, with trees that look the same. -/
structure Frame.Alike (φ : Token → Token) (f g : Frame) : Prop where
  rule : f.rule = g.rule
  level : f.level = g.level
  todo : f.todo = g.todo
  kids : f.kids.map (mapTokens φ) = g.kids.map (mapTokens φ)

theorem Frame.map_todo {fs gs : List Frame} (h : List.Forall₂ (Frame.Alike φ) fs gs) :
    fs.map Frame.todo = gs.map Frame.todo := by
  induction h with
  | nil => rfl
  | cons hfg _ ih => rw [List.map_cons, List.map_cons, hfg.todo, ih]

namespace Machine

/-- Machines that are about to read the same, with trees so far that look the same. -/
structure Alike (φ : Token → Token) (m n : Machine) : Prop where
  stack : List.Forall₂ (Frame.Alike φ) m.stack n.stack
  rest : m.rest.map φ = n.rest.map φ
  finish : φ m.finish = φ n.finish
  result : m.result.map (mapTokens φ) = n.result.map (mapTokens φ)

namespace Alike

variable {m n : Machine}

theorem token_eq (h : Alike φ m n) : φ m.token = φ n.token := by
  have hhead := congrArg List.head? h.rest
  rw [List.head?_map, List.head?_map] at hhead
  rw [token, token, ← Option.getD_map φ, ← Option.getD_map φ, hhead, h.finish]

theorem kinds_eq (hφ : ∀ t, (φ t).kind = t.kind) (h : Alike φ m n) : m.kinds = n.kinds := by
  have hkinds : ∀ ts : List Token, (ts.map φ).map Token.kind = ts.map Token.kind := by
    intro ts
    rw [List.map_map]
    exact List.map_congr_left fun t _ => hφ t
  rw [kinds, kinds, ← hkinds m.rest, ← hkinds n.rest, h.rest]

section Moves

variable {f g : Frame} {fs gs : List Frame}

/-! ### The moves -/

theorem mayEnd_eq (hs : m.stack = f :: fs) (hs' : n.stack = g :: gs) (hfg : f.Alike φ g)
    (hfs : List.Forall₂ (Frame.Alike φ) fs gs) : m.mayEnd = n.mayEnd := by
  simp only [mayEnd, top, callers, hs, hs', List.drop_one, List.tail_cons, hfg.todo,
    Frame.map_todo hfs]

theorem setTodo (h : Alike φ m n) (hs : m.stack = f :: fs) (hs' : n.stack = g :: gs)
    (hfg : f.Alike φ g) (hfs : List.Forall₂ (Frame.Alike φ) fs gs) (todo : List Item) :
    Alike φ (m.setTodo todo) (n.setTodo todo) := by
  rw [setTodo_of_stack hs, setTodo_of_stack hs']
  exact ⟨.cons ⟨hfg.rule, hfg.level, rfl, hfg.kids⟩ hfs, h.rest, h.finish, h.result⟩

theorem read (h : Alike φ m n) (hs : m.stack = f :: fs) (hs' : n.stack = g :: gs)
    (hfg : f.Alike φ g) (hfs : List.Forall₂ (Frame.Alike φ) fs gs) (todo : List Item) :
    Alike φ (m.settle.consume.setTodo todo) (n.settle.consume.setTodo todo) := by
  rw [read_of_stack hs, read_of_stack hs']
  refine ⟨.cons ⟨hfg.rule, hfg.level, rfl, ?_⟩ hfs, ?_, h.finish, h.result⟩
  · rw [List.map_append, List.map_append, hfg.kids, List.map_singleton, List.map_singleton,
      mapTokens_leaf, mapTokens_leaf, h.token_eq]
  · rw [List.map_drop, List.map_drop, h.rest]

theorem enter (h : Alike φ m n) (r : Rule) (level : Nat) :
    Alike φ (m.enter r level) (n.enter r level) :=
  ⟨.cons ⟨rfl, rfl, rfl, rfl⟩ h.stack, h.rest, h.finish, h.result⟩

theorem fold (h : Alike φ m n) (hs : m.stack = f :: fs) (hs' : n.stack = g :: gs)
    (hfg : f.Alike φ g) (hfs : List.Forall₂ (Frame.Alike φ) fs gs) (todo : List Item) :
    Alike φ (m.fold.setTodo todo) (n.fold.setTodo todo) := by
  rw [fold_of_stack hs, fold_of_stack hs']
  refine ⟨.cons ⟨hfg.rule, hfg.level, rfl, ?_⟩ hfs, h.rest, h.finish, h.result⟩
  rw [List.map_singleton, List.map_singleton, mapTokens_node, mapTokens_node, hfg.rule, hfg.kids]

theorem leave (h : Alike φ m n) (hs : m.stack = f :: fs) (hs' : n.stack = g :: gs)
    (hfg : f.Alike φ g) (hfs : List.Forall₂ (Frame.Alike φ) fs gs) : Alike φ m.leave n.leave := by
  have hnode : mapTokens φ (.node f.rule f.kids) = mapTokens φ (.node g.rule g.kids) := by
    rw [mapTokens_node, mapTokens_node, hfg.rule, hfg.kids]
  cases hfs with
  | nil =>
      rw [leave_of_last hs, leave_of_last hs']
      exact ⟨.nil, h.rest, h.finish, congrArg some hnode⟩
  | cons hab hrest =>
      rw [leave_of_stack hs, leave_of_stack hs']
      refine ⟨.cons ⟨hab.rule, hab.level, hab.todo, ?_⟩ hrest, h.rest, h.finish, h.result⟩
      rw [List.map_append, List.map_append, hab.kids, List.map_singleton, List.map_singleton, hnode]

end Moves

/-- Steps that find nothing wrong keep machines alike: which move is made depends on the place in
the grammar and on the kinds of the tokens to come. -/
theorem step (hφ : ∀ t, (φ t).kind = t.kind) (h : Alike φ m n) (hm : m.recovering = false)
    (hn : n.recovering = false) (hcm : m.step.complaints.length ≤ m.complaints.length)
    (hcn : n.step.complaints.length ≤ n.complaints.length) : Alike φ m.step n.step := by
  cases hs : m.stack with
  | nil =>
      have hs' : n.stack = [] := List.forall₂_nil_left_iff.mp (hs ▸ h.stack)
      simpa only [Machine.step, hs, hs'] using h
  | cons f fs =>
      obtain ⟨g, gs, hfg, hfs, hs'⟩ := List.forall₂_cons_left_iff.mp (hs ▸ h.stack)
      have hto := h.setTodo hs hs' hfg hfs
      simp only [Machine.step, hs, hs', ← hfg.todo, ← hfg.level] at hcm hcn ⊢
      cases ht : f.todo with
      | nil => exact h.leave hs hs' hfg hfs
      | cons x rest =>
          cases x with
          | token k =>
              simp only [ht] at hcm hcn ⊢
              rw [(accept_eq hm hcm).2, (accept_eq hn hcn).2]
              exact h.read hs hs' hfg hfs rest
          | oneOf ks =>
              simp only [ht] at hcm hcn ⊢
              rw [(accept_eq hm hcm).2, (accept_eq hn hcn).2]
              exact h.read hs hs' hfg hfs rest
          | rule r level => exact (hto rest).enter r level
          | fold limit => exact h.fold hs hs' hfg hfs rest
          | choice guide alternatives =>
              simp only [ht] at hcm hcn ⊢
              have hcheck := check_eq (fun m' => le_take _ _ m') hm hcm
              rw [hcheck] at hcm ⊢
              rw [check_eq (fun m' => le_take _ _ m') hn hcn, ← h.kinds_eq hφ,
                ← mayEnd_eq hs hs' hfg hfs]
              obtain ⟨way, hway, -⟩ := take_eq hm hcm
              rw [hway]
              exact hto _
          | optional guide body =>
              simp only [ht] at hcm hcn ⊢
              have hcheck := check_eq (fun m' => le_take _ _ m') hm hcm
              rw [hcheck] at hcm ⊢
              rw [check_eq (fun m' => le_take _ _ m') hn hcn, ← h.kinds_eq hφ]
              obtain ⟨way, hway, -⟩ := take_eq hm hcm
              rw [hway]
              exact hto _
          | loop guide body =>
              simp only [ht] at hcm hcn ⊢
              rw [check_eq (fun m' => by simp) hm hcm, check_eq (fun m' => by simp) hn hcn,
                ← h.kinds_eq hφ]
              exact hto _
          | again guide body =>
              simp only [ht] at hcm hcn ⊢
              rw [check_eq (fun m' => by simp) hm hcm, check_eq (fun m' => by simp) hn hcn,
                ← h.kinds_eq hφ]
              exact hto _

/-- Readings without a complaint stay alike to their end. -/
theorem run (hφ : ∀ t, (φ t).kind = t.kind) {r : Rule} {ts us : List Token}
    (h : Alike φ m n) (hm : Sound r ts m) (hn : Sound r us n) (hcm : m.complaints = [])
    (hcn : n.complaints = []) {k : Nat} (hm' : (m.run k).complaints = [])
    (hn' : (n.run k).complaints = []) : Alike φ (m.run k) (n.run k) := by
  induction k generalizing m n with
  | zero => exact h
  | succ k ih =>
      unfold Machine.run at hm' hn' ⊢
      cases hs : m.stack with
      | nil =>
          have hs' : n.stack = [] := List.forall₂_nil_left_iff.mp (hs ▸ h.stack)
          simpa [hs, hs'] using h
      | cons f fs =>
          obtain ⟨g, gs, -, -, hs'⟩ := List.forall₂_cons_left_iff.mp (hs ▸ h.stack)
          simp only [hs, hs', List.isEmpty_cons, Bool.false_eq_true, if_false] at hm' hn' ⊢
          obtain ⟨hstep, hcalm⟩ := hm.step hcm hs hm'
          obtain ⟨hstep', hcalm'⟩ := hn.step hcn hs' hn'
          exact ih (h.step hφ hm.calm hn.calm (by simp [hcalm, hcm]) (by simp [hcalm', hcn]))
            hstep hstep' hcalm hcalm' hm' hn'

end Alike

end Machine

variable {a b : Text}

/-- Whether a text is read without a complaint, and how far, shows in the kinds of its tokens. -/
theorem read_of_kinds (h : (Token.scan a).map Token.kind = (Token.scan b).map Token.kind)
    (ha : (read .command a).complaints = []) :
    (read .command b).complaints = [] ∧ (read .command b).next = (read .command a).next := by
  have hkinds : (Token.scan b).map Token.kind =
      ((Token.scan a).map Token.kind).take (read .command a).next ++
        ((Token.scan a).map Token.kind).drop (read .command a).next := by
    rw [List.take_append_drop, h]
  have hderives := derives_of_read ha
  rw [List.map_take] at hderives
  obtain ⟨hb, hnext⟩ := read_command hkinds (of_derives hderives) (ends_of_read ha)
  have hle := next_add_rest a
  rw [List.length_take, List.length_map] at hnext
  exact ⟨hb, by omega⟩

theorem read_alike (hφ : ∀ t, (φ t).kind = t.kind)
    (htokens : (Token.scan a).map φ = (Token.scan b).map φ)
    (hfinish : φ (Token.finish a) = φ (Token.finish b))
    (ha : (read .command a).complaints = []) (hb : (read .command b).complaints = []) :
    (read .command a).tree.mapTokens φ = (read .command b).tree.mapTokens φ := by
  have hlength : (Token.scan a).length = (Token.scan b).length := by
    simpa using congrArg List.length htokens
  have hstart : Machine.Alike φ (Machine.start .command a) (Machine.start .command b) :=
    ⟨.cons ⟨rfl, rfl, rfl, rfl⟩ .nil, htokens, hfinish, rfl⟩
  have hended : ended b = (Machine.start .command b).run (bound (Token.scan a).length) := by
    rw [ended, hlength]
  have halike : Machine.Alike φ (ended a) (ended b) := by
    rw [hended]
    exact hstart.run hφ (sound_start (by decide) a) (sound_start (by decide) b) rfl rfl
      (complaints_ended.mpr ha) (hended ▸ complaints_ended.mpr hb)
  have htree : ∀ text, (read .command text).tree =
      (ended text).result.getD (.node .command []) := fun _ => rfl
  rw [htree, htree, ← Option.getD_map (mapTokens φ), ← Option.getD_map (mapTokens φ),
    halike.result]

end Parse

end CommandShell
