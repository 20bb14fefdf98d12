import CommandShell.Proofs.Completeness

/-! # Where a reading stops

A reading that ends without a complaint before the end of the text has refused the next token at
every place of the rules that were open when the last token was read. Which token that can be
follows from the last token alone. -/

namespace CommandShell.Parse

open Grammar Relation Spelling

namespace View

/-- What a step does that finds nothing wrong, with the decision that it makes. -/
inductive Smooth (v : View) : View → Prop
  | leave {t : Task} {ts : List Task} (hs : v.tasks = t :: ts) (ht : t.todo = []) :
      Smooth v { v with tasks := ts }
  | read {t : Task} {ts : List Task} {x : Item} {rest : List Item} {ls : List Kind}
      (hs : v.tasks = t :: ts) (ht : t.todo = x :: rest) (hx : tokenKinds? x = some ls)
      (hk : v.kind ∈ ls) :
      Smooth v { v.advance 1 with tasks := { t with todo := rest } :: ts, givenUp := none }
  | enter {t : Task} {ts : List Task} {r : Rule} {level : Nat} {rest : List Item}
      (hs : v.tasks = t :: ts) (ht : t.todo = .rule r level :: rest) :
      Smooth v { v with tasks := ⟨r, level, body r⟩ :: { t with todo := rest } :: ts }
  | fold {t : Task} {ts : List Task} {limit : Nat} {rest : List Item} (hs : v.tasks = t :: ts)
      (ht : t.todo = .fold limit :: rest) :
      Smooth v { v with tasks := { t with todo := rest } :: ts }
  | turn {t : Task} {ts : List Task} {next : List Item} (mayEnd : Bool) (hs : v.tasks = t :: ts)
      (h : resolve t.level mayEnd v.kinds t.todo = some next) :
      Smooth v { v with tasks := { t with todo := next } :: ts }

theorem Smooth.act {v v' : View} (h : Smooth v v') : Act v v' := by
  cases h with
  | leave hs ht => exact .leave hs ht
  | read hs ht hx hk =>
      have h := Act.read 1 hs ht hx Nat.one_pos
      rwa [setTodo_of_tasks (v := { v.advance 1 with givenUp := none }) hs] at h
  | enter hs ht => exact .enter hs ht
  | fold hs ht =>
      rw [← setTodo_of_tasks hs]
      exact .fold hs ht
  | turn mayEnd hs h =>
      rw [← setTodo_of_tasks hs]
      exact .turn mayEnd hs (.refl v) h

end View

namespace Machine

open View

variable {m : Machine} {f : Frame} {fs : List Frame}

theorem smooth_accept {x : Item} {rest : List Item} {ls : List Kind} (hs : m.stack = f :: fs)
    (ht : f.todo = x :: rest) (hx : tokenKinds? x = some ls) (hr : m.recovering = false)
    {supposed : List Tree}
    (hc : (m.accept ls supposed rest).complaints.length ≤ m.complaints.length) :
    Smooth m.view (m.accept ls supposed rest).view := by
  obtain ⟨hk, he⟩ := accept_eq hr hc
  have htasks : m.view.tasks = f.task :: fs.map Frame.task := by simp [view, hs]
  have h := Smooth.read htasks ht hx hk
  rw [he, Machine.view_setTodo, view_consume, view_settle]
  rwa [← setTodo_of_tasks (v := { m.view.advance 1 with givenUp := none }) htasks] at h

section Decisions

variable {t : Task} {ts : List Task} {afterRound : Bool}

theorem smooth_take (ht : m.view.tasks = t :: ts) (hr : m.recovering = false)
    {ways : List (List Item)} {forecast : Machine → Forecast}
    (h : ∀ n, forecast m = .way n →
      resolve t.level m.mayEnd m.view.kinds t.todo = some (ways[n]?.getD []))
    (hc : (m.check afterRound fun m' => m'.take ways (forecast m')).complaints.length ≤
      m.complaints.length) :
    Smooth m.view (m.check afterRound fun m' => m'.take ways (forecast m')).view := by
  have he := check_eq (fun m' => le_take _ _ m') hr hc
  rw [he] at hc ⊢
  obtain ⟨n, hn, hw⟩ := take_eq hr hc
  rw [hw, view_setTodo, setTodo_of_tasks ht]
  exact .turn m.mayEnd ht (h n hn)

theorem smooth_round (ht : m.view.tasks = t :: ts) (hr : m.recovering = false)
    {next : Machine → List Item}
    (h : resolve t.level m.mayEnd m.view.kinds t.todo = some (next m))
    (hc : (m.check afterRound fun m' => m'.setTodo (next m')).complaints.length ≤
      m.complaints.length) :
    Smooth m.view (m.check afterRound fun m' => m'.setTodo (next m')).view := by
  rw [check_eq (fun m' => by simp) hr hc, view_setTodo, setTodo_of_tasks ht]
  exact .turn m.mayEnd ht h

end Decisions

/-- A step without a complaint is smooth. -/
theorem smooth_step (hs : m.stack = f :: fs) (hr : m.recovering = false)
    (hc : m.step.complaints.length ≤ m.complaints.length) : Smooth m.view m.step.view := by
  have ht : m.view.tasks = f.task :: fs.map Frame.task := by simp [view, hs]
  unfold step at hc ⊢
  simp only [hs] at hc ⊢
  cases hf : f.todo with
  | nil =>
      simp only [view_leave, ht, List.tail_cons]
      exact .leave ht hf
  | cons x rest =>
      simp only [hf] at hc ⊢
      cases x with
      | token | oneOf => exact smooth_accept hs hf rfl hr hc
      | rule r level =>
          rw [view_enter hs]
          exact .enter ht hf
      | fold limit =>
          rw [view_setTodo, view_fold, setTodo_of_tasks ht]
          exact .fold ht hf
      | choice | optional =>
          refine smooth_take ht hr (fun n hn => ?_) hc
          simp [Frame.task, hf, resolve, kinds_view, hn]
      | loop | again =>
          refine smooth_round ht hr ?_ hc
          rw [Frame.task, hf, kinds_view]
          rfl

end Machine

/-- A reading without a complaint is smooth from its start to its end. -/
theorem Sound.smooth {start : Rule} {ts : List Token} {m : Machine} (h : Sound start ts m)
    (hm : m.complaints = []) {n : Nat} (hn : (m.run n).complaints = []) :
    ReflTransGen View.Smooth m.view (m.run n).view := by
  induction n generalizing m with
  | zero => exact .refl
  | succ n ih =>
      cases hs : m.stack with
      | nil =>
          rw [Machine.run_of_nil hs]
      | cons f fs =>
          rw [Machine.run_succ (by simp [hs])] at hn ⊢
          obtain ⟨hsound, hcalm⟩ := h.step hm hs hn
          have hle : m.step.complaints.length ≤ m.complaints.length := by simp [hcalm, hm]
          exact .head (Machine.smooth_step hs h.calm hle) (ih hsound hcalm hn)

/-! ### What is refused -/

/-- The item can be left out, and is left out with the kinds to come. -/
def Refused (level : Nat) (ks : List Kind) : Item → Prop
  | .optional g body | .loop g body | .again g body => enters g level body ks = false
  | _ => False

/-- All that the rules are still to read is left out. -/
def Idle (ks : List Kind) (ts : List Task) : Prop :=
  ∀ t ∈ ts, ∀ x ∈ t.todo, Refused t.level ks x

theorem idle_cons {ks : List Kind} {t : Task} {ts : List Task} :
    Idle ks (t :: ts) ↔ (∀ x ∈ t.todo, Refused t.level ks x) ∧ Idle ks ts := List.forall_mem_cons

theorem canSkipAll_of_refused {level : Nat} {ks : List Kind} {todo : List Item}
    (h : ∀ x ∈ todo, Refused level ks x) : canSkipAll todo = true := by
  induction todo with
  | nil => rfl
  | cons x todo ih =>
      have hx : canSkip x = true := by
        have href := h x (by simp)
        cases x <;> first | rfl | cases href
      simp [canSkipAll, hx, ih fun y hy => h y (by simp [hy])]

theorem canSkipAll_append (xs ys : List Item) :
    canSkipAll (xs ++ ys) = (canSkipAll xs && canSkipAll ys) := by
  induction xs with
  | nil => rfl
  | cons x xs ih => simp [canSkipAll, ih, Bool.and_assoc]

/-- Is a token needed for whatever can be gone into at the place? -/
def needy : List Item → Bool
  | .choice _ alternatives :: _ => alternatives.all fun xs => !canSkipAll xs
  | .optional g body :: rest => !canSkipAll body && (g ≠ .two || !canSkipAll rest)
  | .loop _ body :: _ | .again _ body :: _ => !canSkipAll body
  | .fold _ :: rest => !canSkipAll rest
  | _ => true

theorem needy_of_mem_places {r : Rule} {todo : List Item} (h : todo ∈ places r) :
    needy todo = true := by
  have all : ∀ r : Rule, ∀ todo ∈ along (body r), needy todo = true := by
    intro r
    cases r <;> decide +kernel
  exact all r todo (mem_along h)

/-- If all that is left after a decision is refused, the decision was to leave its part out. -/
theorem refused_of_optional {g : Guide} {level n : Nat} {body rest next : List Item}
    {ks : List Kind} (hneedy : needy (.optional g body :: rest) = true)
    (h : optionalForecast g level body rest ks = .way n)
    (hnext : [body ++ rest, rest][n]?.getD [] = next) (hskip : canSkipAll next = true) :
    enters g level body ks = false ∧ rest = next := by
  simp only [needy, Bool.and_eq_true, Bool.not_eq_true', Bool.or_eq_true] at hneedy
  have hn := optionalForecast_lt h
  rcases n with _ | _ | n
  · subst hnext
    simp [canSkipAll_append, hneedy.1] at hskip
  · obtain rfl : rest = next := hnext
    have hg : g ≠ .two := by
      rintro rfl
      simp [hskip] at hneedy
    refine ⟨?_, rfl⟩
    cases he : enters g level body ks with
    | false => rfl
    | true => cases g <;> simp_all [optionalForecast]
  · omega

theorem refused_of_round {g : Guide} {level : Nat} {body rest next : List Item} {ks : List Kind}
    (hneedy : canSkipAll body = false)
    (hnext : (if enters g level body ks then body ++ .again g body :: rest else rest) = next)
    (hskip : canSkipAll next = true) : enters g level body ks = false ∧ rest = next := by
  cases he : enters g level body ks with
  | false => exact ⟨rfl, by simpa [he] using hnext⟩
  | true =>
      rw [he, if_pos rfl] at hnext
      rw [← hnext, canSkipAll_append, hneedy] at hskip
      cases hskip

theorem refused_of_resolve {r : Rule} {level : Nat} {mayEnd : Bool} {ks : List Kind}
    {todo next : List Item} (hp : todo ∈ places r)
    (h : resolve level mayEnd ks todo = some next) (hn : ∀ x ∈ next, Refused level ks x) :
    ∀ x ∈ todo, Refused level ks x := by
  have hneedy := needy_of_mem_places hp
  have hskip := canSkipAll_of_refused hn
  cases todo with
  | nil => cases h
  | cons x rest =>
      cases x with
      | token | oneOf | rule | fold => cases h
      | choice g alternatives =>
          obtain ⟨xs, hxs, rfl⟩ := List.mem_map.mp (mem_turns_of_resolve hp h)
          have hhard := List.all_eq_true.mp hneedy xs (List.mem_filter.mp hxs).1
          rw [canSkipAll_append] at hskip
          simp_all
      | optional g body =>
          cases ho : optionalForecast g level body rest ks with
          | stuck offset => simp [resolve, ho] at h
          | way n =>
              have hnext : [body ++ rest, rest][n]?.getD [] = next := by
                simpa [resolve, ho] using h
              obtain ⟨he, rfl⟩ := refused_of_optional hneedy ho hnext hskip
              simpa [Refused, he] using hn
      | loop g body | again g body =>
          have hbody : canSkipAll body = false := by simpa [needy] using hneedy
          obtain ⟨he, rfl⟩ := refused_of_round hbody (Option.some.inj h) hskip
          simpa [Refused, he] using hn

/-! ### What is known of the open rules -/

/-- The rule with which the reading started is `command`. -/
def Rooted : Rule → List Task → Prop
  | r, [] => r = .command
  | _, t :: ts => Rooted t.rule ts

/-- A word or redirection after the first, with the gap before it. -/
def further : List Item := [gap, .rule .atom 0]

/-- What is left of a call when no further word comes. -/
def callEnds : List (List Item) := [[.optional .one [gap]], [gap]]

/-- Once a call has come to the gap that may end it, no further word follows. -/
def Trailing (ks : List Kind) (t : Task) : Prop :=
  t.rule = .call → t.todo ∈ callEnds → enters .two t.level further ks = false

theorem callEnds_of_successor {todo next : List Item} (h : todo ∈ places .call)
    (hn : next ∈ successors todo) (ht : next ∈ callEnds) :
    todo ∈ callEnds ∨ ∃ x, IsLoop x .two further ∧ todo = x :: next := by
  have all : ∀ todo ∈ along (body .call), ∀ next ∈ successors todo, next ∈ callEnds →
      todo ∈ callEnds ∨ todo = .loop .two further :: next ∨ todo = .again .two further :: next := by
    decide +kernel
  rcases all todo (mem_along h) next hn ht with h | h | h
  · exact Or.inl h
  · exact Or.inr ⟨_, Or.inl rfl, h⟩
  · exact Or.inr ⟨_, Or.inr rfl, h⟩

/-- Only a decision brings a call to its end. -/
theorem notMem_callEnds {x : Item} {rest : List Item} (h : x :: rest ∈ places .call)
    (hx : successors (x :: rest) = [rest]) : rest ∉ callEnds := by
  have all : ∀ todo ∈ along (body .call), successors todo = [todo.tail] →
      todo.tail ∉ callEnds := by
    decide +kernel
  exact all _ (mem_along h) hx

/-- What holds of a reading of a command that has found nothing wrong. -/
structure Steady (v : View) : Prop where
  placed : Placed v.tasks
  rooted : ∀ t ts, v.tasks = t :: ts → Rooted t.rule ts
  trailing : ∀ t ts, v.tasks = t :: ts → Trailing v.kinds t

theorem steady_start (text : Text) : Steady (Machine.start .command text).view where
  placed := placed_start _ _
  rooted := by
    rintro t ts ⟨⟩
    rfl
  trailing := by
    rintro t ts ⟨⟩ h
    cases h

namespace Steady

variable {v v' : View} {t : Task} {ts : List Task}

theorem top_mem (h : Steady v) (hs : v.tasks = t :: ts) : t.todo ∈ places t.rule := by
  have hp := h.placed
  rw [hs] at hp
  exact hp.1

theorem below (h : Steady v) (hs : v.tasks = t :: ts) : Below t.rule t.level ts := by
  have hp := h.placed
  rw [hs] at hp
  exact hp.2

theorem of_top (h : Steady v) (hs : v.tasks = t :: ts) {next : List Item}
    (hs' : v'.tasks = { t with todo := next } :: ts) (hv : View.Act v v')
    (ht : Trailing v'.kinds { t with todo := next }) : Steady v' where
  placed := hv.placed h.placed
  rooted := by
    intro u us hus
    obtain ⟨rfl, rfl⟩ := List.cons.inj (hs'.symm.trans hus)
    exact h.rooted t _ hs
  trailing := by
    intro u us hus
    obtain ⟨rfl, -⟩ := List.cons.inj (hs'.symm.trans hus)
    exact ht

/-- A decision that brings a call to its end has found no further word. -/
theorem trailing_turn (h : Steady v) (hs : v.tasks = t :: ts) {mayEnd : Bool} {next : List Item}
    (hr : resolve t.level mayEnd v.kinds t.todo = some next) :
    Trailing v.kinds { t with todo := next } := by
  intro hcall hnext
  replace hcall : t.rule = .call := hcall
  have hp := h.top_mem hs
  have hsucc := mem_successors_of_mem_turns (mem_turns_of_resolve hp hr)
  rw [hcall] at hp
  rcases callEnds_of_successor hp hsucc hnext with ht | ⟨x, hx, ht⟩
  · exact h.trailing t ts hs hcall ht
  · replace hr : (if enters .two t.level further v.kinds then further ++ .again .two further :: next
        else next) = next := by
      rw [ht] at hr
      rcases hx with rfl | rfl <;> exact Option.some.inj hr
    cases he : enters .two t.level further v.kinds with
    | false => rfl
    | true =>
        rw [he, if_pos rfl] at hr
        have hlength := congrArg List.length hr
        simp [further] at hlength
        omega

theorem step (h : Steady v) (hv : View.Smooth v v') : Steady v' := by
  have hact := hv.act
  cases hv with
  | leave hs ht =>
      have hroot := h.rooted _ _ hs
      refine ⟨hact.placed h.placed, ?_, ?_⟩
      · rintro u us rfl
        exact hroot
      · rintro u us rfl hcall hmem
        have hb := (h.below hs).1
        rw [hcall] at hb
        exact absurd hmem (notMem_callEnds hb rfl)
  | enter hs ht =>
      have hroot := h.rooted _ _ hs
      refine ⟨hact.placed h.placed, ?_, ?_⟩
      · rintro u us ⟨⟩
        exact hroot
      · rintro u us ⟨⟩ rfl hmem
        exact absurd hmem (by decide : body .call ∉ callEnds)
  | @read t ts x rest ls hs ht hx hk =>
      refine h.of_top hs rfl hact ?_
      rintro (hcall : t.rule = .call) hmem
      have hp := h.top_mem hs
      rw [ht, hcall] at hp
      exact absurd hmem (notMem_callEnds hp (tokenKinds?_successors hx))
  | @fold t ts limit rest hs ht =>
      refine h.of_top hs rfl hact ?_
      rintro (hcall : t.rule = .call) hmem
      have hp := h.top_mem hs
      rw [ht, hcall] at hp
      exact absurd hmem (notMem_callEnds hp rfl)
  | turn mayEnd hs hr => exact h.of_top hs rfl hact (h.trailing_turn hs hr)

end Steady

/-! ### What the last token leaves open -/

/-- What can come after the last token is told by that token. -/
def Left (last k : Kind) : Prop :=
  if last ∈ gapKinds then k ∉ starts .atom else k ∉ starts .argument ∧ k ∉ gapKinds

/-- The rules for the pieces of a word. No other rule calls `line`. -/
def pieceRules : List Rule := [.line, .unquoted, .quoted, .singleQuoted, .backQuoted, .doubleQuoted]

/-- The rules for what stands between the gaps of a call. -/
def atomRules : List Rule := [.argument, .atom, .redirection] ++ pieceRules

/-- Where one of some rules is called and the rest of the caller can be left out, the caller is one
of them too or the item is in the rest. -/
def awaits (inner : List Rule) (y : Item) (r : Rule) : List Item → Bool
  | .rule s _ :: rest =>
      !(inner.contains s && canSkipAll rest) || inner.contains r || rest.contains y
  | _ => true

/-- If all that is left to read is refused, then so is what the caller of some rules waits for. -/
theorem refused_of_awaits {inner : List Rule} {y : Item} (hroot : .command ∉ inner)
    (hinner : ∀ r, ∀ todo ∈ along (body r), awaits inner y r todo = true) {ks : List Kind} {r : Rule}
    {level : Nat} {ts : List Task} (hb : Below r level ts) (hr : Rooted r ts) (hi : Idle ks ts)
    (hmem : r ∈ inner) : ∃ level, Refused level ks y := by
  induction ts generalizing r level with
  | nil =>
      obtain rfl : r = .command := hr
      exact absurd hmem hroot
  | cons t ts ih =>
      have hskip := canSkipAll_of_refused (hi t (by simp))
      have hcall := hinner _ _ (mem_along hb.1)
      simp only [awaits, hskip, Bool.and_true, Bool.or_eq_true, Bool.not_eq_true',
        List.contains_eq_mem, decide_eq_true_eq, decide_eq_false_iff_not] at hcall
      rcases hcall with (h | h) | h
      · exact absurd hmem h
      · exact ih hb.2 hr (fun u hu => hi u (by simp [hu])) h
      · exact ⟨_, hi t (by simp) y h⟩

theorem awaits_piece (r : Rule) :
    ∀ todo ∈ along (body r), awaits pieceRules (.again .one [piece]) r todo = true := by
  cases r <;> decide +kernel

theorem awaits_gap (r : Rule) :
    ∀ todo ∈ along (body r), awaits atomRules (.optional .one [gap]) r todo = true := by
  cases r <;> decide +kernel

/-- Is a token after which the rest can be left out the gap at the end of a call, or a token of a
word? -/
def closing (r : Rule) : List Item → Bool
  | x :: rest =>
      match tokenKinds? x with
      | some ls =>
          !canSkipAll rest || (r = .call && x :: rest = [gap]) ||
            (pieceRules.contains r && ls.all fun k => !gapKinds.contains k)
      | none => true
  | [] => true

theorem closing_of_mem_places {r : Rule} {x : Item} {rest : List Item} {ls : List Kind}
    (h : x :: rest ∈ places r) (hx : tokenKinds? x = some ls) (hskip : canSkipAll rest = true) :
    (r = .call ∧ x :: rest = [gap]) ∨ (r ∈ pieceRules ∧ ∀ k ∈ ls, k ∉ gapKinds) := by
  have all : ∀ r : Rule, ∀ todo ∈ along (body r), closing r todo = true := by
    intro r
    cases r <;> decide +kernel
  simpa [closing, hx, hskip] using all r _ (mem_along h)

/-- After the last token all open rules have refused the next one. -/
theorem Steady.left_of_read {v : View} {t : Task} {ts : List Task} {x : Item} {rest : List Item}
    {ls ks : List Kind} (h : Steady v) (hs : v.tasks = t :: ts) (ht : t.todo = x :: rest)
    (hx : tokenKinds? x = some ls) {l : Kind} (hl : l ∈ ls) (hks : v.kinds = l :: ks)
    (hi : Idle ks ({ t with todo := rest } :: ts)) : Left l (kindAt ks 0) := by
  have hp := h.top_mem hs
  rw [ht] at hp
  obtain ⟨hrefused, hbelow⟩ := idle_cons.mp hi
  have hskip : canSkipAll rest = true := canSkipAll_of_refused hrefused
  rcases closing_of_mem_places hp hx hskip with ⟨hcall, hgap⟩ | ⟨hpiece, hword⟩
  · -- The gap at the end of a call: no further word was seen before it was read.
    obtain ⟨rfl, rfl⟩ := List.cons.inj hgap
    obtain rfl := Option.some.inj hx
    have htwo := h.trailing t ts hs hcall (by rw [ht]; decide)
    rw [hks, ← Bool.not_eq_true, further, enters_two_iff rfl] at htwo
    rw [Left, if_pos (show l ∈ gapKinds from hl)]
    refine fun hk => htwo ⟨hl, List.mem_append_left _ ?_⟩
    rwa [kindAt_cons_succ]
  · -- A token of a word: neither another piece nor a gap follows.
    obtain ⟨_, hmore⟩ := refused_of_awaits (by decide) awaits_piece (h.below hs) (h.rooted t ts hs)
      hbelow hpiece
    obtain ⟨_, hgap⟩ := refused_of_awaits (by decide) awaits_gap (h.below hs) (h.rooted t ts hs)
      hbelow (List.mem_append_right _ hpiece)
    rw [Left, if_neg (hword l hl)]
    replace hmore : kindAt ks 0 ∉ firstAll [piece] := by
      simpa [isBound, piece] using enters_eq_false hmore
    replace hgap : kindAt ks 0 ∉ firstAll [gap] := by
      simpa [isBound, gap] using enters_eq_false hgap
    rw [firstAll_token rfl] at hgap
    refine ⟨fun hk => hmore ?_, hgap⟩
    revert hk
    cases kindAt ks 0 <;> decide

theorem View.Smooth.suffix {v v' : View} (h : View.Smooth v v') : v'.rest <:+ v.rest := by
  cases h with
  | read hs ht hx hk => exact List.drop_suffix 1 v.rest
  | _ => exact List.suffix_refl _

/-- A reading that ends before the end of the text refuses the token after the last one read. -/
theorem Steady.stops {v e : View} (h : ReflTransGen View.Smooth v e) (hv : Steady v)
    (he : e.tasks = []) (hne : e.rest ≠ []) :
    (v.rest = e.rest ∧ Idle e.kinds v.tasks) ∨
      ∃ t, t :: e.rest <:+ v.rest ∧ Left t.kind (kindAt e.kinds 0) := by
  -- Backwards from the end: as long as no token is read, all that is left to read is refused.
  induction h using ReflTransGen.head_induction_on with
  | refl => exact Or.inl ⟨rfl, by simp [Idle, he]⟩
  | @head v v' hstep _ ih =>
      rcases ih (hv.step hstep) with ⟨hrest, hidle⟩ | ⟨t, ht, hleft⟩
      · cases hstep with
        | @leave t ts hs ht =>
            refine Or.inl ⟨hrest, ?_⟩
            rw [hs, idle_cons, ht]
            exact ⟨List.forall_mem_nil _, hidle⟩
        | @read t ts x rest ls hs ht hx hk =>
            obtain ⟨a, as, has⟩ : ∃ a as, v.rest = a :: as := by
              refine List.exists_cons_of_ne_nil fun hnil => hne ?_
              rw [← hrest]
              simp [View.advance, hnil]
            replace hrest : as = e.rest := by simpa [View.advance, has] using hrest
            subst hrest
            refine Or.inr ⟨a, by rw [has], hv.left_of_read hs ht hx ?_ ?_ hidle⟩
            · simpa [View.kind, has] using hk
            · simp [View.kinds, has]
        | enter hs ht =>
            have hskip := canSkipAll_of_refused (idle_cons.mp hidle).1
            rw [canSkipAll_body] at hskip
            cases hskip
        | fold hs ht =>
            have hskip := canSkipAll_of_refused (idle_cons.mp hidle).1
            have hneedy := needy_of_mem_places (hv.top_mem hs)
            rw [ht, needy, hskip] at hneedy
            cases hneedy
        | @turn t ts next mayEnd hs hr =>
            refine Or.inl ⟨hrest, ?_⟩
            have hkinds : v.kinds = e.kinds := congrArg (List.map Token.kind) hrest
            rw [hkinds] at hr
            obtain ⟨hnext, hbelow⟩ := idle_cons.mp hidle
            rw [hs, idle_cons]
            exact ⟨refused_of_resolve (hv.top_mem hs) hr hnext, hbelow⟩
      · exact Or.inr ⟨t, ht.trans hstep.suffix, hleft⟩

end CommandShell.Parse
