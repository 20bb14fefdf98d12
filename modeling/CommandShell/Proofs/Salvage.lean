import CommandShell.Proofs.Openings
import CommandShell.Proofs.Recovery

/-! # What is saved of a line

Of a line that is not written as the grammar says, the reader saves what it can. At the start of a
line and after each `;` it looks for a call. If there is one it is read as it stands, and only what
comes after a bar behind it is mended; if there is none, all tokens up to the next `;` are passed
over. At the start of a line there is no `;` to go on with, and nothing at all is saved then. -/

namespace CommandShell

namespace Tree

/-- A call, or a pipe that starts with it. The other calls of the pipe may have been mended. -/
inductive LedBy (c : Tree) : Tree → Prop
  | call : LedBy c c
  | pipe {p s : Tree} {kids : List Tree} (h : LedBy c p) (hs : IsLeaf [.bar] s)
      (hk : ∀ x ∈ kids, x.Simple) : LedBy c (.node .pipe [p, s, .node .call kids])

/-- An item that starts with a whole call from among the tokens. -/
def Opened (ts : List Token) (x : Tree) : Prop := ∃ c, IsCall c ∧ c.tokens <:+: ts ∧ LedBy c x

/-- What is read after a `;`: an item after tokens that were passed over, or these alone. -/
inductive Segment (ts : List Token) : Tree → Prop
  | lost {kids : List Tree} (h : ∀ k ∈ kids, k.rule? = none) : Segment ts (.node .command kids)
  | item {lost : List Tree} {x : Tree} (h : ∀ k ∈ lost, k.rule? = none) (hx : Opened ts x) :
      Segment ts (.node .command (lost ++ [x]))

/-- What is read of a line that starts with an item. -/
inductive Salvaged (ts : List Token) : Tree → Prop
  | item {lost : List Tree} {x : Tree} (h : ∀ k ∈ lost, k.rule? = none) (hx : Opened ts x) :
      Salvaged ts (.node .command (lost ++ [x]))
  | join {a s b : Tree} (ha : Salvaged ts a) (hs : IsLeaf [.semicolon] s) (hb : Segment ts b) :
      Salvaged ts (.node .command [a, s, b])

theorem Opened.mono {ts us : List Token} {x : Tree} (h : Opened ts x) (hts : ts <:+ us) :
    Opened us x := by
  obtain ⟨c, hc, htokens, hx⟩ := h
  exact ⟨c, hc, htokens.trans hts.isInfix, hx⟩

end Tree

namespace Parse

open Grammar Spelling CommandShell.Tree Machine

/-- What a rule builds without a complaint is a tree of the rule, and its leaves are the tokens. -/
theorem Builds.shape {r : Rule} (hr : r ≠ .line) {ts rest : List Token} {new : List Tree}
    (h : Builds r 0 (body r) ts rest new []) :
    Shape r 0 (.node r new) ∧ tokensAll new = ts := by
  let m : Machine := { Machine.start r [] with rest := ts ++ rest }
  have hsound : Sound r (ts ++ rest) m := by
    refine ⟨rfl, (sound_start hr []).stack, fun _ => rfl, ?_, rfl, fun _ => rfl⟩
    intro t ht
    cases ht
  have hstart : Stands [] [] ⟨r, 0, body r, []⟩ (ts ++ rest) m := ⟨rfl, rfl, rfl, rfl, rfl⟩
  obtain ⟨n, hn⟩ := h [] [] [] m hstart
  have hend := hsound.run rfl hn.complaints
  have htokens := hend.tokens (by simp [hn.stack])
  rw [hn.stack, hn.rest] at htokens
  refine ⟨(hend.top hn.stack).2 _ rfl, ?_⟩
  simpa [stackTokens] using htokens

/-! ### Steps between two items -/

/-- The reader has the frame on top of the frames below it and the tokens before it, whether it has
complained or not. -/
structure Faces (below : List Frame) (f : Frame) (ts : List Token) (m : Machine) : Prop where
  stack : m.stack = f :: below
  rest : m.rest = ts
  finish : m.finish.kind = .finish

section Steps

variable {below : List Frame} {complaints : List Complaint} {r : Rule} {level : Nat}
  {todo : List Item} {kids : List Tree} {ts : List Token} {m : Machine}

theorem Stands.faces {f : Frame} (h : Stands below complaints f ts m) : Faces below f ts m :=
  ⟨h.stack, h.rest, h.finish⟩

/-- At a loop that ends the rule nothing is complained of. -/
theorem Faces.loop {x : Item} {round : List Item} (h : Faces below ⟨r, level, [x], kids⟩ ts m)
    (hx : IsLoop x .one round) :
    Faces below ⟨r, level,
      if enters .one level round (kindsOf ts) then round ++ [.again .one round] else [], kids⟩ ts
      m.step := by
  have hcheck : ∀ afterRound go, m.check afterRound go = go m := by
    intro afterRound go
    unfold Machine.check
    have htop : canSkipAll m.top = true := by simp [Machine.top, h.stack, canSkipAll, hx.canSkip_eq]
    simp [htop]
  have hkinds : m.kinds = kindsOf ts := by rw [Machine.kinds, h.rest, kindsOf]
  have hstep : m.step = m.setTodo
      (if enters .one level round (kindsOf ts) then round ++ [.again .one round] else []) := by
    unfold Machine.step
    simp only [h.stack]
    rcases hx with rfl | rfl <;> simp only [hcheck, hkinds]
  rw [hstep, setTodo_of_stack h.stack]
  exact ⟨rfl, h.rest, h.finish⟩

theorem Faces.fold {limit : Nat} (h : Faces below ⟨r, level, .fold limit :: todo, kids⟩ ts m) :
    Faces below ⟨r, level, todo, [.node r kids]⟩ ts m.step := by
  have hstep : m.step = m.fold.setTodo todo := by
    unfold Machine.step
    simp only [h.stack]
  rw [hstep, fold_of_stack h.stack]
  exact ⟨rfl, h.rest, h.finish⟩

/-- A token that fits ends what was wrong before it. -/
theorem Faces.token {t : Token} {k : Kind} (ht : t.kind = k)
    (h : Faces below ⟨r, level, .token k :: todo, kids⟩ (t :: ts) m) :
    Stands below m.complaints ⟨r, level, todo, kids ++ [.leaf t]⟩ ts m.step := by
  have htoken : m.token = t := by simp [Machine.token, h.rest]
  have hstep : m.step = m.settle.consume.setTodo todo := by
    unfold Machine.step
    simp [h.stack, accept, Machine.kind, htoken, ht]
  rw [hstep, read_of_stack h.stack, htoken]
  exact ⟨rfl, by simp [h.rest], rfl, rfl, h.finish⟩

theorem Faces.leave {g : Frame} (h : Faces (g :: below) ⟨r, level, [], kids⟩ ts m) :
    Faces below { g with kids := g.kids ++ [.node r kids] } ts m.step := by
  have hstep : m.step = m.leave := by
    unfold Machine.step
    simp only [h.stack]
  rw [hstep, leave_of_stack h.stack]
  exact ⟨rfl, h.rest, h.finish⟩

theorem Faces.reaches_step {f : Frame} (h : Faces below f ts m) : Reaches m m.step :=
  Reaches.step h.stack

/-- The same place after some steps. -/
theorem Goes.exists_stands {todo' : List Item} {kids' : List Tree} {ts' : List Token}
    (hg : Goes r level todo kids ts todo' kids' ts')
    (h : Stands below complaints ⟨r, level, todo, kids⟩ ts m) :
    ∃ m', Reaches m m' ∧ Stands below complaints ⟨r, level, todo', kids'⟩ ts' m' := by
  obtain ⟨n, hn⟩ := hg below complaints m h
  exact ⟨_, ⟨n, rfl⟩, hn⟩

/-- After a mark comes another round, in which some rule is read. -/
theorem Faces.round {x : Item} {limit l : Nat} {s : Rule} {t : Token} {mark : Kind}
    (h : Faces below ⟨r, level, [x], kids⟩ (t :: ts) m)
    (hx : IsLoop x .one (onward limit mark s l)) (ht : t.kind = mark) (hlevel : level ≤ limit) :
    ∃ m', Reaches m m' ∧ Stands
      (⟨r, level, [.again .one (onward limit mark s l)], [.node r kids, .leaf t]⟩ :: below)
      m'.complaints ⟨s, l, body s, []⟩ ts m' := by
  have henters : enters .one level (onward limit mark s l) (kindsOf (t :: ts)) = true :=
    enters_of_mem (decide_eq_true hlevel) (List.mem_singleton.mpr ht)
  have hloop := h.loop hx
  rw [if_pos henters] at hloop
  have hfold := Faces.fold hloop
  have htoken := Faces.token ht hfold
  have henter := Stands.enter htoken
  refine ⟨_, ((h.reaches_step.trans hloop.reaches_step).trans hfold.reaches_step).trans
    htoken.faces.reaches_step, ?_⟩
  rw [henter.complaints]
  exact henter

/-- Without the mark the rule is over. -/
theorem Faces.over {x : Item} {round : List Item} (h : Faces below ⟨r, level, [x], kids⟩ ts m)
    (hx : IsLoop x .one round) (he : enters .one level round (kindsOf ts) = false) :
    Faces below ⟨r, level, [], kids⟩ ts m.step := by
  have hloop := h.loop hx
  rwa [if_neg (by simp [he])] at hloop

end Steps

/-! ### Items -/

section Items

variable {below : List Frame} {complaints : List Complaint} {r : Rule} {level : Nat}
  {todo : List Item} {kids : List Tree} {ts : List Token} {m : Machine}

/-- A rule that has been entered is left some steps later. -/
theorem Stands.returns {g : Frame} {s : Rule} {l : Nat} (hs : s ∉ outerRules)
    (h : Stands (g :: below) complaints ⟨s, l, body s, []⟩ ts m) (hp : Placed m.view.tasks) :
    ∃ m' kids, Reaches m m' ∧ (∀ x ∈ kids, x.Simple) ∧
      Faces below { g with kids := g.kids ++ [.node s kids] } m'.rest m' := by
  have hinside : Inside s (g :: below) m.stack :=
    ⟨[], _, h.stack, rfl, by simpa using hs⟩
  obtain ⟨m', hm', kids, hkids, g', gs, hbelow, hstack⟩ := hinside.returns (by simp) hp h.finish
  obtain ⟨rfl, rfl⟩ := List.cons.inj hbelow
  exact ⟨m', kids, hm', hkids, hstack, rfl, by rw [hm'.finish_eq, h.finish]⟩

/-- A whole call is read as it stands. -/
theorem Stands.call {q rest : List Token} (hc : Call (kindsOf q))
    (hs : Stops (kindsOf q) (kindsOf rest))
    (h : Stands below complaints ⟨r, level, .rule .call 0 :: todo, kids⟩ (q ++ rest) m) :
    ∃ m' c, Reaches m m' ∧ Stands below complaints ⟨r, level, todo, kids ++ [c]⟩ rest m' ∧
      IsCall c ∧ c.tokens = q := by
  obtain ⟨new, hnew⟩ := exists_callSpan hc
  have hbuilds : Builds .call 0 (body .call) q rest new [] := hnew.builds hs
  obtain ⟨m', hm', hstands⟩ := (goes_rule (hbuilds []) kids).exists_stands h
  obtain ⟨hshape, htokens⟩ := hbuilds.shape (by decide)
  exact ⟨m', .node .call new, hm', hstands, hshape, htokens⟩

/-- Another call of a pipe. -/
def stage : List Item := onward pipeLimit .bar .call 0

/-- A pipe goes on as long as bars come. -/
theorem Faces.pipe {c : Tree} {x : Item} (h : Faces below ⟨.pipe, 0, [x], kids⟩ ts m)
    (hx : IsLoop x .one stage) (hk : LedBy c (.node .pipe kids)) (hp : Placed m.view.tasks) :
    ∃ m' kids', Reaches m m' ∧ Faces below ⟨.pipe, 0, [], kids'⟩ m'.rest m' ∧
      LedBy c (.node .pipe kids') := by
  induction hn : ts.length using Nat.strong_induction_on generalizing ts m kids x with
  | _ n ih =>
      by_cases hbar : kindAt (kindsOf ts) 0 = .bar
      · obtain ⟨t, ts, rfl, ht⟩ : ∃ t us, ts = t :: us ∧ t.kind = .bar := by
          cases ts with
          | nil => cases hbar
          | cons t us => exact ⟨t, us, rfl, hbar⟩
        obtain ⟨m₁, hm₁, hcall⟩ := h.round hx ht (Nat.zero_le _)
        obtain ⟨m₂, more, hm₂, hmore, hfaces⟩ := hcall.returns (by decide) (hm₁.placed hp)
        have hreaches := hm₁.trans hm₂
        have hlength : m₂.rest.length < n := by
          have hle := hm₂.rest_suffix.length_le
          rw [hcall.rest] at hle
          rw [← hn, List.length_cons]
          omega
        obtain ⟨m₃, kids', hm₃, hend, hled⟩ := ih _ hlength hfaces (Or.inr rfl)
          (.pipe hk (.leaf (by simp [ht])) hmore) (hreaches.placed hp) rfl
        exact ⟨m₃, kids', hreaches.trans hm₃, hend, hled⟩
      · have hend := h.over hx (enters_of_notMem fun hmem => hbar (List.mem_singleton.mp hmem))
        exact ⟨m.step, kids, h.reaches_step, by rwa [hend.rest], hk⟩

/-- What the reader turns to when a whole call stands before it. -/
def itemRule (rest : List Token) : Rule := if (kindsOf rest).head? = some .bar then .pipe else .call

/-- An item is read from the call with which it starts. -/
theorem Stands.item {q rest : List Token} (hc : Call (kindsOf q))
    (hs : Stops (kindsOf q) (kindsOf rest)) (hp : Placed m.view.tasks)
    (h : Stands below complaints
      ⟨.command, level, [.rule (itemRule rest) 0, .loop .one another], kids⟩ (q ++ rest) m) :
    ∃ m' c x, Reaches m m' ∧ IsCall c ∧ c.tokens = q ∧ LedBy c x ∧
      Faces below ⟨.command, level, [.loop .one another], kids ++ [x]⟩ m'.rest m' := by
  by_cases hbar : (kindsOf rest).head? = some .bar
  · rw [itemRule, if_pos hbar] at h
    obtain ⟨t, us, rfl, ht⟩ : ∃ t us, rest = t :: us ∧ t.kind = .bar := by
      cases rest with
      | nil => cases hbar
      | cons t us => exact ⟨t, us, rfl, Option.some.inj hbar⟩
    have hpipe := h.enter
    obtain ⟨m₁, c, hm₁, hfirst, hcall, htokens⟩ := Stands.call hc hs hpipe
    have hmark := Faces.token ht hfirst.faces
    have hsecond := hmark.enter
    have hm₂ := ((h.faces.reaches_step.trans hm₁).trans hfirst.faces.reaches_step).trans
      hmark.faces.reaches_step
    obtain ⟨m₃, more, hm₃, hmore, hfaces⟩ := hsecond.returns (by decide) (hm₂.placed hp)
    obtain ⟨m₄, kids', hm₄, hend, hled⟩ := hfaces.pipe (Or.inl rfl)
      (.pipe .call (.leaf (by simp [ht])) hmore) ((hm₂.trans hm₃).placed hp)
    refine ⟨m₄.step, c, _, ((hm₂.trans hm₃).trans hm₄).trans hend.reaches_step, hcall, htokens,
      hled, ?_⟩
    rw [hend.leave.rest]
    exact hend.leave
  · rw [itemRule, if_neg hbar] at h
    obtain ⟨m₁, c, hm₁, hfirst, hcall, htokens⟩ := Stands.call hc hs h
    refine ⟨m₁, c, c, hm₁, hcall, htokens, .call, ?_⟩
    rw [hfirst.rest]
    exact hfirst.faces

end Items

/-! ### Starts of commands -/

/-- The tokens from which a command is read. One that cannot start it is dropped if the next one
can. -/
def opening (ts : List Token) : List Token :=
  if kindAt (kindsOf ts) 0 ∉ starts .command ∧ kindAt (kindsOf ts) 1 ∈ starts .command then
    ts.drop 1
  else ts

section Starts

variable {below : List Frame} {complaints : List Complaint} {level : Nat} {kids : List Tree}
  {ts : List Token} {m : Machine}

theorem opening_suffix (ts : List Token) : opening ts <:+ ts := by
  unfold opening
  split
  · exact List.drop_suffix 1 ts
  · exact List.suffix_refl ts

theorem kind_tokenAt (hf : m.finish.kind = .finish) (n : Nat) :
    (m.tokenAt n).kind = kindAt (kindsOf m.rest) n := by
  cases hn : m.rest[n]? <;> simp [tokenAt, kindAt, kindsOf, hn, hf]

theorem Stands.kind_eq {f : Frame} (h : Stands below complaints f ts m) :
    m.kind = kindAt (kindsOf ts) 0 := h.place.kind_eq

theorem Stands.top_eq {f : Frame} (h : Stands below complaints f ts m) : m.top = f.todo := by
  simp [Machine.top, h.stack]

theorem canSkipAll_command : canSkipAll (body .command) = false := canSkipAll_body .command

theorem Stands.expected_eq
    (h : Stands below complaints ⟨.command, level, body .command, kids⟩ ts m) :
    m.expected = firstAll (body .command) := by
  unfold Machine.expected
  rw [h.top_eq]
  cases m.callers <;> simp [expectedAfter, canSkipAll_command]

/-- A whole call is turned to. -/
theorem Stands.turn {q rest : List Token} (hc : Call (kindsOf q))
    (hs : Stops (kindsOf q) (kindsOf rest))
    (h : Stands below complaints ⟨.command, level, body .command, kids⟩ (q ++ rest) m) :
    Stands below complaints ⟨.command, level, [.rule (itemRule rest) 0, .loop .one another], kids⟩
      (q ++ rest) m.step := by
  have hway : ∀ mayEnd, choose .callOrPipe mayEnd commands (kindsOf (q ++ rest)) =
      .way (if (kindsOf rest).head? = some .bar then 0 else 1) := by
    intro mayEnd
    rw [kindsOf_append]
    exact callOrPipe_call hc hs
  have hturn : Turns .command level (body .command) (kindsOf (q ++ rest))
      [.rule (itemRule rest) 0, .loop .one another] := by
    unfold itemRule
    split at hway
    · next hbar =>
        rw [if_pos hbar]
        exact turns_choice rfl hway rfl
    · next hbar =>
        rw [if_neg hbar]
        exact turns_choice rfl hway rfl
  rw [hturn below complaints m h.place, setTodo_of_stack h.stack]
  exact ⟨rfl, h.rest, h.calm, h.complaints, h.finish⟩

/-- Where no whole call stands the command is given up, if it has started at all. -/
theorem Stands.stuck (h : Stands below complaints ⟨.command, level, body .command, kids⟩ ts m)
    (hk : kindAt (kindsOf ts) 0 ∈ starts .command) (hno : ¬StartsWithCall (kindsOf ts)) :
    GivesUp m m.step := by
  obtain ⟨offset, hoffset⟩ : ∃ offset, callOrPipe .start 0 (kindsOf ts) = .stuck offset := by
    cases hway : callOrPipe .start 0 (kindsOf ts) with
    | way n => exact absurd (startsWithCall_iff.mpr ⟨n, hway⟩) hno
    | stuck offset => exact ⟨offset, rfl⟩
  have hkinds : m.kinds = kindsOf ts := h.place.kinds
  have hv : Viable (body .command) (kindsOf ts) := Or.inl ((mem_starts_iff _ _).mp hk)
  have hstep : m.step = m.failNoWay offset := by
    unfold Machine.step
    simp only [h.stack, body]
    rw [h.place.check_eq hv, hkinds, choose, hoffset, Machine.take]
  rw [hstep]
  exact givesUp_failNoWay (by simp [h.stack]) offset

/-- A token that is dropped is complained of, and the reading goes on calmly. -/
theorem Stands.dropped {f : Frame} (h : Stands below complaints f ts m) (trouble : Trouble) :
    Stands below (m.complain trouble).consume.settle.complaints
      { f with kids := f.kids ++ [.skipped m.token] } (ts.drop 1)
      (m.complain trouble).consume.settle := by
  have hcomplain : m.complain trouble = { m with
      recovering := true
      complaints := ⟨m.token.line, m.token.column, trouble⟩ :: m.complaints } := by
    simp [complain, complainAt, h.calm]
  have hs : (m.complain trouble).stack = f :: below := by rw [hcomplain, h.stack]
  rw [consume_of_stack hs]
  refine ⟨?_, ?_, rfl, rfl, ?_⟩
  · simp [Machine.settle, grown, hcomplain, Machine.token]
  · simp [Machine.settle, hcomplain, h.rest]
  · simpa [Machine.settle, hcomplain] using h.finish

/-- Before a token with which a command cannot start, something is complained of. -/
theorem Stands.check_command
    (h : Stands below complaints ⟨.command, level, body .command, kids⟩ ts m)
    (hk : kindAt (kindsOf ts) 0 ∉ starts .command) (go : Machine → Machine) :
    m.check false go = (m.drop?.map go).getD m.failMismatched := by
  have hfirst : (m.recovering || (firstAll m.top).contains m.kind || canSkipAll m.top) = false := by
    rw [h.calm, h.top_eq, h.kind_eq, canSkipAll_command]
    simpa using fun hmem => hk ((mem_starts_iff _ _).mpr hmem)
  unfold Machine.check
  rw [hfirst]
  cases m.drop? <;> rfl

theorem Stands.expected_contains
    (h : Stands below complaints ⟨.command, level, body .command, kids⟩ ts m) :
    m.expected.contains (m.tokenAt 1).kind = decide (kindAt (kindsOf ts) 1 ∈ starts .command) := by
  rw [h.expected_eq, kind_tokenAt h.finish, h.rest, List.contains_eq_mem]
  exact decide_eq_decide.mpr (mem_starts_iff _ _).symm

theorem kindAt_drop_one (ts : List Token) :
    kindAt (kindsOf (ts.drop 1)) 0 = kindAt (kindsOf ts) 1 := by
  rw [kindsOf, List.map_drop, kindAt, List.getElem?_drop]
  rfl

/-- A token that cannot start a command is dropped if the next one can. -/
theorem Stands.drop (h : Stands below complaints ⟨.command, level, body .command, kids⟩ ts m)
    (hk : kindAt (kindsOf ts) 0 ∉ starts .command)
    (hnext : kindAt (kindsOf ts) 1 ∈ starts .command) :
    ∃ m' t, Stands below m'.complaints ⟨.command, level, body .command, kids ++ [.skipped t]⟩
      (ts.drop 1) m' ∧ m.step = m'.step := by
  have hstands := h.dropped (.extraneous m.token.text m.expected)
  have hdrop : m.drop? =
      some (m.complain (.extraneous m.token.text m.expected)).consume.settle := by
    rw [drop?, h.expected_contains, if_pos (decide_eq_true hnext)]
  refine ⟨_, m.token, hstands, ?_⟩
  -- Both steps make the choice with the token dropped.
  have hv : Viable (body .command) (kindsOf (ts.drop 1)) := by
    rw [← kindAt_drop_one] at hnext
    exact Or.inl ((mem_starts_iff _ _).mp hnext)
  unfold Machine.step
  simp only [h.stack, hstands.stack, body]
  rw [hstands.place.check_eq hv, h.check_command hk, hdrop]
  rfl

/-- A command that cannot start is given up. -/
theorem Stands.mismatch (h : Stands below complaints ⟨.command, level, body .command, kids⟩ ts m)
    (hk : kindAt (kindsOf ts) 0 ∉ starts .command)
    (hnext : kindAt (kindsOf ts) 1 ∉ starts .command) : GivesUp m m.step := by
  have hdrop : m.drop? = none := by
    rw [drop?, h.expected_contains, if_neg (by simpa using hnext)]
  have hstep : m.step = m.failMismatched := by
    unfold Machine.step
    simp only [h.stack, body]
    rw [h.check_command hk, hdrop]
    rfl
  rw [hstep]
  exact givesUp_failMismatched (by simp [h.stack])

theorem kindAt_of_startsWithCall {ks : List Kind} (h : StartsWithCall ks) :
    kindAt ks 0 ∈ starts .command := by
  obtain ⟨n, hn⟩ := startsWithCall_iff.mp h
  have hway : choose .callOrPipe false commands ks = .way n := hn
  obtain ⟨xs, hxs, hk⟩ := choose_starts rfl hway
  exact (mem_starts_iff _ _).mpr
    (List.mem_append_left _ (mem_firstSome (List.mem_of_getElem? hxs) hk))

/-- At its start a command stands before the tokens from which it is read, or is given up. -/
theorem Stands.opens (h : Stands below complaints ⟨.command, level, body .command, []⟩ ts m) :
    (∃ m' lost, (∀ k ∈ lost, k.rule? = none) ∧ m.step = m'.step ∧
      kindAt (kindsOf (opening ts)) 0 ∈ starts .command ∧
      Stands below m'.complaints ⟨.command, level, body .command, lost⟩ (opening ts) m') ∨
    (¬StartsWithCall (kindsOf (opening ts)) ∧ GivesUp m m.step) := by
  by_cases hk : kindAt (kindsOf ts) 0 ∈ starts .command
  · have hopening : opening ts = ts := if_neg fun h => h.1 hk
    rw [hopening]
    exact Or.inl ⟨m, [], by simp, rfl, hk, by rwa [h.complaints]⟩
  · by_cases hnext : kindAt (kindsOf ts) 1 ∈ starts .command
    · have hopening : opening ts = ts.drop 1 := if_pos ⟨hk, hnext⟩
      have hkind : kindAt (kindsOf (ts.drop 1)) 0 ∈ starts .command := by rwa [kindAt_drop_one]
      obtain ⟨m', t, hstands, hstep⟩ := h.drop hk hnext
      rw [hopening]
      exact Or.inl ⟨m', [.skipped t], by simp [rule?], hstep, hkind, hstands⟩
    · have hopening : opening ts = ts := if_neg fun h => hnext h.2
      rw [hopening]
      exact Or.inr ⟨fun hcall => hk (kindAt_of_startsWithCall hcall), h.mismatch hk hnext⟩

/-- A command that has been given up is left with nothing but tokens. -/
def Abandoned (level : Nat) (below : List Frame) (m : Machine) : Prop :=
  ∃ (m' : Machine) (todo : List Item) (kids : List Tree), m = m'.leave ∧
    m'.stack = ⟨.command, level, todo, kids⟩ :: below ∧ (∀ k ∈ kids, k.rule? = none) ∧
    m'.finish.kind = .finish

theorem Machine.GivesUp.abandoned {m' : Machine} (hg : GivesUp m m')
    (h : Stands below complaints ⟨.command, level, body .command, kids⟩ ts m)
    (hk : ∀ k ∈ kids, k.rule? = none) : Abandoned level below m' := by
  obtain ⟨m₁, hm, rfl⟩ := hg
  obtain ⟨todo, new, hs, hnew⟩ := hm.stack h.stack
  exact ⟨m₁, todo, _, rfl, hs, List.forall_mem_append.mpr ⟨hk, hnew⟩, by rw [hm.finish, h.finish]⟩

/-- From its start a command comes to an item if a whole call stands there, and is given up
otherwise. -/
theorem Stands.segment (h : Stands below complaints ⟨.command, level, body .command, []⟩ ts m)
    (hp : Placed m.view.tasks) :
    (StartsWithCall (kindsOf (opening ts)) ∧ ∃ m' lost x, Reaches m m' ∧
      (∀ k ∈ lost, k.rule? = none) ∧ Opened ts x ∧
      Faces below ⟨.command, level, [.loop .one another], lost ++ [x]⟩ m'.rest m') ∨
    (¬StartsWithCall (kindsOf (opening ts)) ∧ ∃ m', Reaches m m' ∧ Abandoned level below m') := by
  have hfirst := h.faces.reaches_step
  rcases h.opens with ⟨m', lost, hlost, hstep, hk, hstands⟩ | ⟨hno, hgives⟩
  · by_cases hcall : StartsWithCall (kindsOf (opening ts))
    · refine Or.inl ⟨hcall, ?_⟩
      obtain ⟨q, rest, hkinds, hq, hs⟩ := hcall
      obtain ⟨us, vs, hopening, rfl, rfl⟩ := kindsOf_eq_append hkinds
      rw [hopening] at hstands
      have hturn := hstands.turn hq hs
      rw [← hstep] at hturn
      obtain ⟨m₂, c, x, hm₂, hc, htokens, hled, hfaces⟩ := hturn.item hq hs (hfirst.placed hp)
      have hstretch : c.tokens <:+: ts := by
        rw [htokens]
        exact (hopening ▸ (List.prefix_append us vs).isInfix).trans (opening_suffix ts).isInfix
      exact ⟨m₂, lost, x, hfirst.trans hm₂, hlost, ⟨c, hc, hstretch, hled⟩, hfaces⟩
    · have hgives := hstands.stuck hk hcall
      rw [← hstep] at hgives
      exact Or.inr ⟨hcall, m.step, hfirst, hgives.abandoned hstands hlost⟩
  · exact Or.inr ⟨hno, m.step, hfirst, hgives.abandoned h (by simp)⟩

end Starts

/-! ### Lines -/

/-- The reading is over and has given a tree. -/
def Ended (t : Tree) (m : Machine) : Prop := m.stack = [] ∧ m.result = some t

theorem Faces.ended {f : Frame} {ts : List Token} {m : Machine} (h : Faces [] f ts m)
    (ht : f.todo = []) : Ended (.node f.rule f.kids) m.step := by
  have hstep : m.step = m.leave := by
    unfold Machine.step
    simp only [h.stack, ht]
  rw [hstep, leave_of_last h.stack]
  exact ⟨rfl, rfl⟩

/-- After an item a line goes on as long as marks come. -/
theorem Faces.line {x : Item} {kids : List Tree} {ts us : List Token} {m : Machine}
    (h : Faces [] ⟨.command, 0, [x], kids⟩ ts m) (hx : IsLoop x .one another)
    (hk : Salvaged us (.node .command kids)) (hts : ts <:+ us) (hp : Placed m.view.tasks) :
    ∃ m' t, Reaches m m' ∧ Ended t m' ∧ Salvaged us t := by
  induction hn : ts.length using Nat.strong_induction_on generalizing ts m kids x with
  | _ n ih =>
      by_cases hmark : kindAt (kindsOf ts) 0 = .semicolon
      · obtain ⟨t, ts, rfl, ht⟩ : ∃ t us, ts = t :: us ∧ t.kind = .semicolon := by
          cases ts with
          | nil => cases hmark
          | cons t us => exact ⟨t, us, rfl, hmark⟩
        obtain ⟨m₁, hm₁, hnext⟩ := h.round hx ht (Nat.zero_le _)
        have hts' : ts <:+ us := (List.suffix_cons t ts).trans hts
        -- In both cases the line has one segment more.
        obtain ⟨m₂, b, hm₂, hb, hfaces⟩ : ∃ m₂ b, Reaches m₁ m₂ ∧ Segment us b ∧
            Faces [] ⟨.command, 0, [.again .one another], [.node .command kids, .leaf t, b]⟩
              m₂.rest m₂ := by
          rcases hnext.segment (hm₁.placed hp) with
            ⟨-, m₂, lost, x, hm₂, hlost, hopened, hfaces⟩ | ⟨-, m₂, hm₂, habandoned⟩
          · have hover := hfaces.over (Or.inl rfl) rfl
            refine ⟨_, _, hm₂.trans (hfaces.reaches_step.trans hover.reaches_step),
              .item hlost (hopened.mono hts'), ?_⟩
            rw [hover.leave.rest]
            exact hover.leave
          · obtain ⟨m₃, todo, lost, rfl, hs, hlost, hf⟩ := habandoned
            refine ⟨_, _, hm₂, .lost hlost, ?_⟩
            rw [leave_of_stack hs]
            exact ⟨rfl, rfl, hf⟩
        have hreaches := hm₁.trans hm₂
        have hrest : m₂.rest <:+ ts := by
          rw [← hnext.rest]
          exact hm₂.rest_suffix
        have hlength : m₂.rest.length < n := by
          have hle := hrest.length_le
          rw [← hn, List.length_cons]
          omega
        obtain ⟨m₃, u, hm₃, hend, hu⟩ := ih _ hlength hfaces (Or.inr rfl)
          (.join hk (.leaf (by simp [ht])) hb) (hrest.trans hts') (hreaches.placed hp) rfl
        exact ⟨m₃, u, hreaches.trans hm₃, hend, hu⟩
      · have hover := h.over hx (enters_of_notMem fun hmem => hmark (List.mem_singleton.mp hmem))
        exact ⟨m.step.step, _, h.reaches_step.trans hover.reaches_step, hover.ended rfl, hk⟩

theorem tree_read_of_ended {text : Text} {m : Machine} {t : Tree}
    (hm : Reaches (Machine.start .command text) m) (h : Ended t m) :
    (read .command text).tree = t := by
  obtain ⟨n, rfl⟩ := hm
  have hended := ended_eq_run h.1
  rw [ended] at hended
  simp [read, hended, h.2]

/-- A line of which a whole call stands at the start is saved item by item; of any other line there
is nothing but tokens that were passed over. -/
theorem read_salvages (text : Text) :
    (StartsWithCall (kindsOf (opening (Token.scan text))) →
      Salvaged (Token.scan text) (read .command text).tree) ∧
    (¬StartsWithCall (kindsOf (opening (Token.scan text))) →
      ∃ kids, (read .command text).tree = .node .command kids ∧ ∀ k ∈ kids, k.rule? = none) := by
  have hstart : Stands [] [] ⟨.command, 0, body .command, []⟩ (Token.scan text)
      (Machine.start .command text) := ⟨rfl, rfl, rfl, rfl, rfl⟩
  have hp := placed_start .command text
  rcases hstart.segment hp with
    ⟨hcall, m, lost, x, hm, hlost, hopened, hfaces⟩ | ⟨hno, m, hm, habandoned⟩
  · refine ⟨fun _ => ?_, fun hno => absurd hcall hno⟩
    obtain ⟨m', t, hm', hend, ht⟩ := hfaces.line (Or.inl rfl) (.item hlost hopened) hm.rest_suffix
      (hm.placed hp)
    rwa [tree_read_of_ended (hm.trans hm') hend]
  · refine ⟨fun hcall => absurd hcall hno, fun _ => ?_⟩
    obtain ⟨m', todo, kids, rfl, hs, hkids, -⟩ := habandoned
    refine ⟨kids, tree_read_of_ended hm ?_, hkids⟩
    rw [leave_of_last hs]
    exact ⟨rfl, rfl⟩

end Parse

end CommandShell
