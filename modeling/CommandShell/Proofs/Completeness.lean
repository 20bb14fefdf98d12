import CommandShell.Proofs.Conservation
import CommandShell.Proofs.CallTrees

/-! # Whatever is derived is read

Pipes and sequences that are spelled as the grammar says are read to their end without a complaint,
if what follows cannot be taken for a part of them. -/

namespace CommandShell.Parse

open Grammar Spelling CommandShell.Tree

section Commands

variable {r : Rule} {level : Nat} {q ks : List Kind}

/-- After the last token read, the next one is left where it is: a redirection without a gap before
it, or a second gap. -/
def Halts (last k : Kind) : Prop :=
  (k ∈ [.less, .greater] ∧ last ∉ gapKinds) ∨ (k ∈ gapKinds ∧ last ∈ gapKinds)

instance (last k : Kind) : Decidable (Halts last k) := inferInstanceAs (Decidable (_ ∨ _))

/-- What follows is one of the marks, or is left where it is, or there is nothing more. -/
def Ends (marks q ks : List Kind) : Prop :=
  ∀ k ∈ ks.head?, k ∈ marks ∨ ∃ l ∈ q.getLast?, Halts l k

theorem ends_mark {marks : List Kind} {k : Kind} (hk : k ∈ marks) (q ks : List Kind) :
    Ends marks q (k :: ks) := by
  intro l hl
  obtain rfl := Option.some.inj hl
  exact Or.inl hk

theorem Ends.mono {marks marks' : List Kind} (h : Ends marks q ks) (hm : marks ⊆ marks') :
    Ends marks' q ks := fun k hk => (h k hk).imp_left (hm ·)

theorem Halts.notMem_marks {l k : Kind} (h : Halts l k) : k ∉ [.semicolon, .bar] := by
  rcases h with ⟨hk, _⟩ | ⟨hk, _⟩
  · revert hk
    cases k <;> decide
  · revert hk
    cases k <;> decide

theorem Ends.kindAt_ne {marks : List Kind} {mark : Kind} (h : Ends marks q ks) (hm : mark ∉ marks)
    (hmark : mark ∈ [.semicolon, .bar]) : kindAt ks 0 ≠ mark := by
  cases ks with
  | nil =>
      rintro rfl
      exact absurd hmark (by decide)
  | cons k ks =>
      rintro rfl
      rcases h k rfl with hk | ⟨l, _, hk⟩
      · exact hm hk
      · exact hk.notMem_marks hmark

theorem stops_of_ends (hc : Call q) (h : Ends [.semicolon, .bar] q ks) : Stops q ks := by
  intro o ho k hk
  obtain ⟨o', ho', hend⟩ := Outlook.through_call hc
  obtain rfl := Option.some.inj (ho.symm.trans ho')
  rcases h k hk with hmark | ⟨l, hl, hhalt⟩
  · rcases hend with rfl | rfl <;> revert hmark <;> cases k <;> decide
  · obtain ⟨p, rfl⟩ := List.getLast?_eq_some_iff.mp hl
    obtain ⟨hgap, hword⟩ := Outlook.last_of_through ho
    rcases hhalt with ⟨hk, hl⟩ | ⟨hk, hl⟩
    · rcases hend with rfl | rfl
      · revert hk
        cases k <;> decide
      · exact absurd (hgap rfl) hl
    · rcases hend with rfl | rfl
      · exact absurd hl (hword rfl)
      · revert hk
        cases k <;> decide

theorem ends_next {marks : List Kind} {mark : Kind} {qs : List (List Kind)} (hm : mark ∈ marks)
    (hend : ∀ d ∈ (q :: qs).getLast?, Ends marks d ks) :
    Ends marks q (qs.flatMap (mark :: ·) ++ ks) := by
  cases qs with
  | nil => exact hend q rfl
  | cons p qs => exact ends_mark hm _ _

/-- What comes after a mark that can be repeated at binding levels up to a limit. -/
def onward (limit : Nat) (mark : Kind) (s : Rule) (l : Nat) : List Item :=
  [.fold limit, .token mark, .rule s l]

/-- A loop goes on after a mark. -/
theorem leads_mark {x : Item} {limit l : Nat} {mark : Kind} {s : Rule}
    (hx : IsLoop x .one (onward limit mark s l)) (hlevel : level ≤ limit) :
    Leads r level [x] (mark :: ks) [.rule s l, .again .one (onward limit mark s l)] ks := by
  have hround : enters .one level (onward limit mark s l) (mark :: ks) = true :=
    enters_of_mem (decide_eq_true hlevel) (List.mem_singleton_self mark)
  refine (turns_round hx hround).leads.trans (leads_fold.trans ?_)
  exact leads_token rfl (List.mem_singleton_self _)

/-- A loop over a mark and a rule reads what stands between the marks. -/
theorem leads_separated {x : Item} {limit l : Nat} {mark : Kind} {s : Rule} {marks : List Kind}
    {p : List Kind → Prop} {qs : List (List Kind)} (hx : IsLoop x .one (onward limit mark s l))
    (hlevel : level ≤ limit)
    (hread : ∀ q ks, p q → Ends marks q ks → Leads s l (body s) (q ++ ks) [] ks)
    (hm : mark ∈ marks) (hqs : ∀ q ∈ qs, p q) (hend : ∀ q ∈ qs.getLast?, Ends marks q ks) :
    ∃ y, IsLoop y .one (onward limit mark s l) ∧
      Leads r level [x] (qs.flatMap (mark :: ·) ++ ks) [y] ks := by
  induction qs generalizing x with
  | nil => exact ⟨x, hx, .refl⟩
  | cons q qs ih =>
      have hnext := ends_next hm hend
      obtain ⟨y, hy, hrest⟩ := ih (Or.inr rfl) (fun x hx => hqs x (by simp [hx])) fun d hd =>
        hend d (by rw [List.getLast?_cons, hd]; rfl)
      refine ⟨y, hy, ?_⟩
      rw [List.flatMap_cons, List.append_assoc, List.cons_append]
      refine (leads_mark hx hlevel).trans ?_
      exact (leads_rule (hread q _ (hqs q (by simp)) hnext)).trans hrest

theorem leads_end {x : Item} {limit l : Nat} {mark : Kind} {s : Rule}
    (hx : IsLoop x .one (onward limit mark s l)) (hk : kindAt ks 0 ≠ mark) :
    Leads r level [x] ks [] ks := by
  refine (turns_exit hx (enters_of_notMem ?_) (Or.inr rfl)).leads
  exact fun h => hk (List.mem_singleton.mp h)

/-- The last token of a spelling with marks is that of its last part. -/
theorem getLast?_separated {mark : Kind} {qs : List (List Kind)} (h : ∀ x ∈ q :: qs, x ≠ [])
    {d : List Kind} (hd : d ∈ (q :: qs).getLast?) :
    (separated mark q qs).getLast? = d.getLast? := by
  induction qs generalizing q with
  | nil =>
      obtain rfl := Option.some.inj hd
      simp [separated]
  | cons p qs ih =>
      have hne : separated mark p qs ≠ [] := by simp [separated, h p (by simp)]
      have happend : separated mark q (p :: qs) = (q ++ [mark]) ++ separated mark p qs := by
        simp [separated]
      rw [happend, List.getLast?_append_of_ne_nil _ hne]
      exact ih (fun x hx => h x (by simp [hx])) (by simpa using hd)

theorem Call.ne_nil (h : Call q) : q ≠ [] := by
  rintro rfl
  obtain ⟨o, ho, hend⟩ := Outlook.through_call h
  obtain rfl := Option.some.inj ho
  rcases hend with h | h <;> cases h

theorem Ends.last {marks : List Kind} {mark : Kind} {qs : List (List Kind)}
    (h : Ends marks (separated mark q qs) ks) (hne : ∀ x ∈ q :: qs, x ≠ []) :
    ∀ d ∈ (q :: qs).getLast?, Ends marks d ks := by
  intro d hd k hk
  rw [← getLast?_separated hne hd]
  exact h k hk

/-- Another item of a sequence. -/
def another : List Item := onward commandLimit .semicolon .command (commandLimit + 1)

theorem leads_calls {c d : List Kind} {cs : List (List Kind)} (h : ∀ x ∈ c :: d :: cs, Call x)
    (hend : ∀ x ∈ (d :: cs).getLast?, Ends [.semicolon, .bar] x ks) :
    ∃ y, IsLoop y .one (onward pipeLimit .bar .call 0) ∧
      Leads .pipe 0 (body .pipe) (separated .bar c (d :: cs) ++ ks) [y] ks := by
  have hread : ∀ q ks, Call q → Ends [.semicolon, .bar] q ks →
      Leads .call 0 (body .call) (q ++ ks) [] ks :=
    fun q ks hq he => leads_call hq (stops_of_ends hq he)
  obtain ⟨y, hy, hrest⟩ : ∃ y, IsLoop y .one (onward pipeLimit .bar .call 0) ∧
      Leads .pipe 0 [.loop .one (onward pipeLimit .bar .call 0)] (cs.flatMap (.bar :: ·) ++ ks)
        [y] ks :=
    leads_separated (Or.inl rfl) (Nat.zero_le _) hread (by decide)
      (fun x hx => h x (by simp [hx])) fun x hx => hend x (by rw [List.getLast?_cons, hx]; rfl)
  refine ⟨y, hy, ?_⟩
  have hkinds : separated .bar c (d :: cs) ++ ks =
      c ++ (.bar :: (d ++ (cs.flatMap (.bar :: ·) ++ ks))) := by simp [separated]
  rw [hkinds]
  refine (leads_rule (hread c _ (h c (by simp)) (ends_mark (by decide) _ _))).trans ?_
  refine (leads_token rfl (List.mem_singleton_self _)).trans ?_
  exact (leads_rule (hread d _ (h d (by simp)) (ends_next (by decide) hend))).trans hrest

def commands : List (List Item) := [[.rule .pipe 0], [.rule .call 0]]

/-- A call with a bar behind it is taken for the start of a pipe. -/
theorem choose_pipe {c : List Kind} (hc : Call c) (ks : List Kind) (mayEnd : Bool) :
    choose .callOrPipe mayEnd commands (c ++ .bar :: ks) = .way 0 :=
  callOrPipe_call hc (stops_of_ends hc (ends_mark (by decide) _ _))

/-- A call with nothing of the sort behind it is taken for just a call. -/
theorem choose_call {c : List Kind} (hc : Call c) (hend : Ends [.semicolon] c ks)
    (mayEnd : Bool) : choose .callOrPipe mayEnd commands (c ++ ks) = .way 1 := by
  have hstops := stops_of_ends hc (hend.mono (by decide))
  have hbar : kindAt ks 0 ≠ .bar := hend.kindAt_ne (by decide) (by decide)
  have hhead : ks.head? ≠ some .bar := by
    cases ks with
    | nil => simp
    | cons k ks => simpa using hbar
  simpa [choose, hhead] using callOrPipe_call hc hstops

theorem leads_item (h : Spelling.Item q) (hend : Ends [.semicolon] q ks) :
    Leads .command level (body .command) (q ++ ks) [.loop .one another] ks := by
  obtain @⟨c, cs, h⟩ := h
  have hne : ∀ x ∈ c :: cs, x ≠ [] := fun x hx => Call.ne_nil (h x hx)
  have hbar : kindAt ks 0 ≠ .bar := hend.kindAt_ne (by decide) (by decide)
  have hlast : ∀ x ∈ (c :: cs).getLast?, Ends [.semicolon, .bar] x ks :=
    fun x hx => ((hend.last hne) x hx).mono (by decide)
  have hc := h c (by simp)
  cases cs with
  | nil =>
      have hstops := stops_of_ends hc (hlast c rfl)
      rw [separated, List.flatMap_nil, List.append_nil] at hend ⊢
      exact (leads_choice rfl (choose_call hc hend) rfl).trans (leads_rule (leads_call hc hstops))
  | cons d cs =>
      obtain ⟨y, hy, hcalls⟩ := leads_calls h fun x hx =>
        hlast x (by rw [List.getLast?_cons, hx]; rfl)
      have hway := choose_pipe hc (d ++ (cs.flatMap (.bar :: ·) ++ ks))
      have hkinds : separated .bar c (d :: cs) ++ ks =
          c ++ (.bar :: (d ++ (cs.flatMap (.bar :: ·) ++ ks))) := by simp [separated]
      rw [← hkinds] at hway
      exact (leads_choice rfl hway rfl).trans (leads_rule (hcalls.trans (leads_end hy hbar)))

theorem Item.ne_nil (h : Spelling.Item q) : q ≠ [] := by
  obtain @⟨c, cs, h⟩ := h
  simp [separated, Call.ne_nil (h c (by simp))]

theorem leads_items {i : List Kind} {is : List (List Kind)} (h : ∀ x ∈ i :: is, Spelling.Item x)
    (hend : ∀ x ∈ (i :: is).getLast?, Ends [.semicolon] x ks) :
    ∃ y, IsLoop y .one another ∧
      Leads .command 0 (body .command) (separated .semicolon i is ++ ks) [y] ks := by
  have hread : ∀ q ks, Spelling.Item q → Ends [.semicolon] q ks →
      Leads .command (commandLimit + 1) (body .command) (q ++ ks) [] ks :=
    fun q ks hq he => (leads_item hq he).trans (turns_exit (Or.inl rfl) rfl (Or.inr rfl)).leads
  obtain ⟨y, hy, hrest⟩ : ∃ y, IsLoop y .one another ∧
      Leads .command 0 [.loop .one another] (is.flatMap (.semicolon :: ·) ++ ks) [y] ks :=
    leads_separated (Or.inl rfl) (Nat.zero_le _) hread (by decide)
      (fun x hx => h x (by simp [hx])) fun x hx => hend x (by rw [List.getLast?_cons, hx]; rfl)
  refine ⟨y, hy, ?_⟩
  rw [separated, List.append_assoc]
  exact (leads_item (h i (by simp)) (ends_next (by decide) hend)).trans hrest

/-- A command is read to its end. -/
theorem leads_command (h : Command q) (hend : Ends [] q ks) :
    Leads .command 0 (body .command) (q ++ ks) [] ks := by
  obtain @⟨i, is, h⟩ := h
  have hne : ∀ x ∈ i :: is, x ≠ [] := fun x hx => Item.ne_nil (h x hx)
  obtain ⟨y, hy, hitems⟩ := leads_items h fun x hx => ((hend.last hne) x hx).mono (by decide)
  exact hitems.trans (leads_end hy (hend.kindAt_ne (by decide) (by decide)))

end Commands

/-! ### A mark after a command is read -/

section Marks

variable {r : Rule} {level : Nat} {todo : List Item} {q ks ks' : List Kind}

/-- The reader comes to have the kinds before it without a complaint, in this rule or in one that
it calls. -/
def Passes (r : Rule) (level : Nat) (todo : List Item) (ks ks' : List Kind) : Prop :=
  ∀ below complaints m, At below complaints ⟨r, level, todo⟩ ks m →
    ∃ n below' t, At below' complaints t ks' (m.run n)

theorem Leads.passes {todo' : List Item} (h : Leads r level todo ks todo' ks') :
    Passes r level todo ks ks' := by
  intro below complaints m hm
  obtain ⟨n, hn⟩ := h below complaints m hm
  exact ⟨n, below, _, hn⟩

theorem Leads.trans_passes {mid : List Item} {ms : List Kind} (h : Leads r level todo ks mid ms)
    (h' : Passes r level mid ms ks') : Passes r level todo ks ks' := by
  intro below complaints m hm
  obtain ⟨a, ha⟩ := h below complaints m hm
  obtain ⟨b, below', t, hb⟩ := h' below complaints _ ha
  rw [← Machine.run_add] at hb
  exact ⟨a + b, below', t, hb⟩

theorem passes_rule {s : Rule} {l : Nat} {rest : List Item} (h : Passes s l (body s) ks ks') :
    Passes r level (.rule s l :: rest) ks ks' := by
  intro below complaints m hm
  obtain ⟨f, -, henter⟩ := hm.enter
  obtain ⟨n, below', t, hn⟩ := h _ _ _ henter
  refine ⟨1 + n, below', t, ?_⟩
  rwa [Machine.run_add, hm.run_one]

theorem passes_item (h : Spelling.Item q) :
    Passes .command level (body .command) (q ++ .bar :: ks) ks := by
  obtain @⟨c, cs, h⟩ := h
  have hc := h c (by simp)
  cases cs with
  | nil =>
      have hpipe : Leads .pipe 0 (body .pipe) (c ++ .bar :: ks)
          [.rule .call 0, .loop .one (onward pipeLimit .bar .call 0)] ks :=
        (leads_rule (leads_call hc (stops_of_ends hc (ends_mark (by decide) _ _)))).trans
          (leads_token rfl (List.mem_singleton_self _))
      rw [separated, List.flatMap_nil, List.append_nil]
      exact (leads_choice rfl (choose_pipe hc ks) rfl).trans_passes (passes_rule hpipe.passes)
  | cons d cs =>
      have hmark : .bar ∈ [Kind.semicolon, .bar] := by decide
      obtain ⟨y, hy, hcalls⟩ := leads_calls h fun x _ => ends_mark hmark x ks
      have hway := choose_pipe hc (d ++ (cs.flatMap (.bar :: ·) ++ .bar :: ks))
      have hkinds : separated .bar c (d :: cs) ++ .bar :: ks =
          c ++ (.bar :: (d ++ (cs.flatMap (.bar :: ·) ++ .bar :: ks))) := by simp [separated]
      rw [← hkinds] at hway
      refine (leads_choice rfl hway rfl).trans_passes (passes_rule ?_)
      exact (hcalls.trans (leads_mark hy (Nat.zero_le _))).passes

theorem passes_command (h : Command q) {mark : Kind} (hm : mark ∈ [.semicolon, .bar]) :
    Passes .command 0 (body .command) (q ++ mark :: ks) ks := by
  obtain @⟨i, is, h⟩ := h
  obtain rfl | rfl : mark = .semicolon ∨ mark = .bar := by simpa using hm
  · obtain ⟨y, hy, hitems⟩ := leads_items h fun x _ => ends_mark (List.mem_singleton_self _) x ks
    exact (hitems.trans (leads_mark hy (Nat.zero_le _))).passes
  · -- The bar belongs to the last item; all before it are read.
    rcases List.eq_nil_or_concat is with rfl | ⟨is, j, rfl⟩
    · rw [separated, List.flatMap_nil, List.append_nil]
      exact passes_item (h i (by simp))
    · have hinit : ∀ x ∈ i :: is, Spelling.Item x := by
        intro x hx
        rcases List.mem_cons.mp hx with rfl | hx <;> exact h _ (by simp [*])
      obtain ⟨y, hy, hitems⟩ := leads_items hinit fun x _ =>
        ends_mark (List.mem_singleton_self _) x (j ++ .bar :: ks)
      have hkinds : separated .semicolon i (is.concat j) ++ .bar :: ks =
          separated .semicolon i is ++ .semicolon :: (j ++ .bar :: ks) := by simp [separated]
      rw [hkinds]
      refine (hitems.trans (leads_mark hy (Nat.zero_le _))).trans_passes (passes_rule ?_)
      exact passes_item (h j (by simp))

end Marks

/-! ### Whole texts -/

/-- The reader when it has read a command. -/
def ended (text : Text) : Machine :=
  (Machine.start .command text).run (bound (Token.scan text).length)

theorem stack_ended (text : Text) : (ended text).stack = [] := stack_read_eq_nil .command text

theorem conserved_ended (text : Text) : Conserved text (ended text) :=
  (conserved_start .command text).strokes (Machine.strokes_run _ _)

theorem complaints_ended {text : Text} :
    (ended text).complaints = [] ↔ (read .command text).complaints = [] := by
  simp [read, ended]

theorem next_add_rest (text : Text) :
    (read .command text).next + (ended text).rest.length = (Token.scan text).length :=
  (conserved_ended text).count

theorem at_start (text : Text) :
    At [] [] ⟨.command, 0, body .command⟩ ((Token.scan text).map Token.kind)
      (Machine.start .command text) :=
  ⟨⟨_, rfl, rfl⟩, rfl, rfl, rfl, rfl⟩

/-- A reading that is over after some steps is the one that has ended. -/
theorem ended_eq_run {text : Text} {n : Nat}
    (h : ((Machine.start .command text).run n).stack = []) :
    ended text = (Machine.start .command text).run n := by
  rcases Nat.le_total (bound (Token.scan text).length) n with hle | hle
  · obtain ⟨c, rfl⟩ := Nat.exists_eq_add_of_le hle
    rw [Machine.run_add, ← ended, Machine.run_of_nil (stack_ended text)]
  · obtain ⟨c, hc⟩ := Nat.exists_eq_add_of_le hle
    rw [ended, hc, Machine.run_add, Machine.run_of_nil h]

/-- A reading that is not over after some steps goes on to its end. -/
theorem exists_ended_eq_run {text : Text} {n : Nat}
    (h : ((Machine.start .command text).run n).stack ≠ []) :
    ∃ c, ended text = ((Machine.start .command text).run n).run c := by
  rcases Nat.le_total (bound (Token.scan text).length) n with hle | hle
  · obtain ⟨c, rfl⟩ := Nat.exists_eq_add_of_le hle
    rw [Machine.run_add, ← ended, Machine.run_of_nil (stack_ended text)] at h
    exact absurd (stack_ended text) h
  · obtain ⟨c, hc⟩ := Nat.exists_eq_add_of_le hle
    exact ⟨c, by rw [← Machine.run_add, ← hc, ended]⟩

/-- A text that starts with a command is read up to the end of it, if the next token ends it. -/
theorem read_command {text : Text} {q ks : List Kind}
    (htext : (Token.scan text).map Token.kind = q ++ ks) (hq : Command q) (hend : Ends [] q ks) :
    (read .command text).complaints = [] ∧ (read .command text).next = q.length := by
  have hstart := at_start text
  rw [htext] at hstart
  obtain ⟨n, hn⟩ := leads_command hq hend _ _ _ hstart
  obtain ⟨f, hs, hf⟩ := hn.stack
  have hf' : f.todo = [] := congrArg Task.todo hf
  have hlast : (Machine.start .command text).run (n + 1) =
      ((Machine.start .command text).run n).leave := by
    rw [Machine.run_add, hn.run_one, Machine.step]
    simp only [hs, hf']
  rw [Machine.leave_of_last hs] at hlast
  have hended := ended_eq_run (congrArg Machine.stack hlast)
  rw [hlast] at hended
  have hrest : (ended text).rest.length = ks.length := by
    rw [hended, ← hn.kinds, Machine.kinds, List.length_map]
  have hlength : (Token.scan text).length = q.length + ks.length := by
    rw [← List.length_map (f := Token.kind), htext, List.length_append]
  have hnext := next_add_rest text
  refine ⟨complaints_ended.mp ?_, by omega⟩
  rw [hended]
  exact hn.complaints

end CommandShell.Parse
