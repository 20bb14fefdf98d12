import CommandShell.Parse.Machine

/-! # Steps without a complaint

A step of the reader that finds nothing wrong is one of six moves. Complaints are never taken
back, so a reading that ends without one has made such moves only. -/

namespace CommandShell.Parse

/-- The number of alternatives among which a decision chooses, where that does not depend on
the alternatives. -/
def arity : Guide → Nat
  | .one | .two => 0
  | .callOrPipe | .piece => 2
  | .quotation => 3
  | .inside => 8

mutual
/-- Does every choice offer as many alternatives as its decision knows, and is the end of the text
never read as a token? -/
def guided : Item → Bool
  | .token k => k ≠ .finish
  | .oneOf ks => .finish ∉ ks
  | .rule r _ => r ≠ .line
  | .fold _ => true
  | .choice g alternatives => arity g ≤ alternatives.length && guidedSome alternatives
  | .optional _ body | .loop _ body | .again _ body => guidedAll body

def guidedAll : List Item → Bool
  | [] => true
  | x :: xs => guided x && guidedAll xs

def guidedSome : List (List Item) → Bool
  | [] => true
  | xs :: rest => guidedAll xs && guidedSome rest
end

theorem guidedAll_body {r : Rule} (h : r ≠ .line) : guidedAll (Grammar.body r) = true := by
  cases r with
  | line => exact absurd rfl h
  | _ => decide

theorem guidedAll_append {xs ys : List Item} :
    guidedAll (xs ++ ys) = (guidedAll xs && guidedAll ys) := by
  induction xs with
  | nil => rfl
  | cons x xs ih => simp [guidedAll, ih, Bool.and_assoc]

theorem guidedAll_of_mem {alternatives : List (List Item)} (h : guidedSome alternatives = true)
    {xs : List Item} (hx : xs ∈ alternatives) : guidedAll xs = true := by
  induction alternatives with
  | nil => simp at hx
  | cons ys rest ih =>
      simp only [guidedSome, Bool.and_eq_true] at h
      rcases List.mem_cons.mp hx with rfl | hx
      · exact h.1
      · exact ih h.2 hx

theorem callOrPipe_lt {o : Outlook} {offset n : Nat} {ks : List Kind}
    (h : callOrPipe o offset ks = .way n) : n < 2 := by
  induction ks generalizing o offset with
  | nil =>
      unfold callOrPipe at h
      split at h <;> simp at h
      omega
  | cons k ks ih =>
      unfold callOrPipe at h
      split at h
      · exact ih h
      · split at h <;> simp at h
        split at h <;> omega

theorem pieceForecast_lt {mayEnd : Bool} {ks : List Kind} {n : Nat}
    (h : pieceForecast mayEnd ks = .way n) : n < 2 := by
  unfold pieceForecast at h
  repeat' split at h
  all_goals simp at h
  all_goals omega

theorem quotationForecast_lt {ks : List Kind} {n : Nat} (h : quotationForecast ks = .way n) :
    n < 3 := by
  unfold quotationForecast at h
  repeat' split at h
  all_goals simp at h
  all_goals omega

theorem insideForecast_lt {ks : List Kind} {n : Nat} (h : insideForecast ks = .way n) : n < 8 := by
  unfold insideForecast at h
  repeat' split at h
  all_goals simp at h
  all_goals omega

theorem firstForecast_lt {alternatives : List (List Item)} {ks : List Kind} {n : Nat}
    (h : firstForecast alternatives ks = .way n) : n < alternatives.length := by
  unfold firstForecast at h
  split at h
  · next i hi =>
      simp only [Forecast.way.injEq] at h
      subst h
      exact (List.findIdx?_eq_some_iff_findIdx_eq.mp hi).1
  · simp at h

/-- A choice is made among the alternatives that there are. -/
theorem choose_lt {g : Guide} {mayEnd : Bool} {alternatives : List (List Item)} {ks : List Kind}
    {n : Nat} (hg : arity g ≤ alternatives.length)
    (h : choose g mayEnd alternatives ks = .way n) : n < alternatives.length := by
  cases g with
  | one => exact firstForecast_lt h
  | two => exact firstForecast_lt h
  | callOrPipe => exact Nat.lt_of_lt_of_le (callOrPipe_lt h) hg
  | piece => exact Nat.lt_of_lt_of_le (pieceForecast_lt h) hg
  | quotation => exact Nat.lt_of_lt_of_le (quotationForecast_lt h) hg
  | inside => exact Nat.lt_of_lt_of_le (insideForecast_lt h) hg

theorem optionalForecast_lt {g : Guide} {level n : Nat} {body rest : List Item} {ks : List Kind}
    (h : optionalForecast g level body rest ks = .way n) : n < 2 := by
  unfold optionalForecast at h
  repeat' split at h
  all_goals simp at h
  all_goals omega

/-- The ways to go on at an item that is a decision, with what comes after it. -/
inductive Turn (level : Nat) (rest : List Item) : Item → List Item → Prop
  | choice {g : Guide} {alternatives : List (List Item)} {xs : List Item}
      (h : xs ∈ alternatives) : Turn level rest (.choice g alternatives) (xs ++ rest)
  | take {g : Guide} {body : List Item} : Turn level rest (.optional g body) (body ++ rest)
  | pass {g : Guide} {body : List Item} : Turn level rest (.optional g body) rest
  | start {g : Guide} {body : List Item} (h : isOpen level body = true) :
      Turn level rest (.loop g body) (body ++ .again g body :: rest)
  | skip {g : Guide} {body : List Item} : Turn level rest (.loop g body) rest
  | round {g : Guide} {body : List Item} (h : isOpen level body = true) :
      Turn level rest (.again g body) (body ++ .again g body :: rest)
  | stop {g : Guide} {body : List Item} : Turn level rest (.again g body) rest

theorem Turn.guidedAll {level : Nat} {rest : List Item} {x : Item} {todo : List Item}
    (h : Turn level rest x todo) (hg : guidedAll (x :: rest) = true) : guidedAll todo = true := by
  cases h with
  | choice hx =>
      simp only [Parse.guidedAll, guided, Bool.and_eq_true] at hg
      simp [guidedAll_append, guidedAll_of_mem hg.1.2 hx, hg.2]
  | _ => simp_all [Parse.guidedAll, guided, guidedAll_append]

namespace Machine

/-- What a step does that finds nothing wrong. -/
inductive Move (m : Machine) : Machine → Prop
  | leave {f : Frame} {fs : List Frame} (hs : m.stack = f :: fs) (ht : f.todo = []) :
      Move m m.leave
  | token {f : Frame} {fs : List Frame} {k : Kind} {rest : List Item} (hs : m.stack = f :: fs)
      (ht : f.todo = .token k :: rest) (hk : m.kind ∈ [k]) :
      Move m (m.settle.consume.setTodo rest)
  | oneOf {f : Frame} {fs : List Frame} {ks : List Kind} {rest : List Item}
      (hs : m.stack = f :: fs) (ht : f.todo = .oneOf ks :: rest) (hk : m.kind ∈ ks) :
      Move m (m.settle.consume.setTodo rest)
  | enter {f : Frame} {fs : List Frame} {r : Rule} {level : Nat} {rest : List Item}
      (hs : m.stack = f :: fs) (ht : f.todo = .rule r level :: rest) :
      Move m ((m.setTodo rest).enter r level)
  | fold {f : Frame} {fs : List Frame} {limit : Nat} {rest : List Item} (hs : m.stack = f :: fs)
      (ht : f.todo = .fold limit :: rest) : Move m (m.fold.setTodo rest)
  | turn {f : Frame} {fs : List Frame} {x : Item} {rest todo : List Item}
      (hs : m.stack = f :: fs) (ht : f.todo = x :: rest) (h : Turn f.level rest x todo) :
      Move m (m.setTodo todo)

/-! ### Complaints stay -/

@[simp] theorem complaints_addKid (m : Machine) (t : Tree) :
    (m.addKid t).complaints = m.complaints := by
  unfold addKid
  split <;> rfl

@[simp] theorem complaints_setTodo (m : Machine) (todo : List Item) :
    (m.setTodo todo).complaints = m.complaints := by
  unfold setTodo
  split <;> rfl

@[simp] theorem complaints_consume (m : Machine) : m.consume.complaints = m.complaints := by
  cases hr : m.recovering <;> simp [consume, hr]

@[simp] theorem complaints_settle (m : Machine) : m.settle.complaints = m.complaints := rfl

@[simp] theorem complaints_leave (m : Machine) : m.leave.complaints = m.complaints := by
  unfold leave
  split
  · rfl
  · split <;> simp

@[simp] theorem complaints_fold (m : Machine) : m.fold.complaints = m.complaints := by
  unfold fold
  split <;> rfl

@[simp] theorem complaints_enter (m : Machine) (r : Rule) (level : Nat) :
    (m.enter r level).complaints = m.complaints := rfl

@[simp] theorem complaints_skipUntil (ks : List Kind) (ts : List Token) (m : Machine) :
    (skipUntil ks ts m).complaints = m.complaints := by
  induction ts generalizing m with
  | nil => rfl
  | cons t ts ih =>
      unfold skipUntil
      split
      · rfl
      · rw [ih, complaints_consume]

@[simp] theorem complaints_giveUp (m : Machine) : m.giveUp.complaints = m.complaints := by
  unfold giveUp
  simp only [complaints_leave, complaints_skipUntil]
  rw [apply_ite complaints, complaints_consume, ite_self]

@[simp] theorem complaints_addKids (ts : List Tree) (m : Machine) :
    (ts.foldl addKid m).complaints = m.complaints := by
  induction ts generalizing m with
  | nil => rfl
  | cons t ts ih => rw [List.foldl_cons, ih, complaints_addKid]

theorem le_complainAt (m : Machine) (t : Token) (trouble : Trouble) :
    m.complaints.length ≤ (m.complainAt t trouble).complaints.length := by
  unfold complainAt
  split <;> simp

theorem lt_complainAt {m : Machine} (hr : m.recovering = false) (t : Token) (trouble : Trouble) :
    m.complaints.length < (m.complainAt t trouble).complaints.length := by
  simp [complainAt, hr]

theorem le_complain (m : Machine) (trouble : Trouble) :
    m.complaints.length ≤ (m.complain trouble).complaints.length :=
  le_complainAt m m.token trouble

theorem lt_complain {m : Machine} (hr : m.recovering = false) (trouble : Trouble) :
    m.complaints.length < (m.complain trouble).complaints.length :=
  lt_complainAt hr m.token trouble

theorem complaints_failMismatched (m : Machine) :
    m.failMismatched.complaints =
      (m.complain (.mismatched m.token.text m.expected)).complaints := by
  simp [failMismatched]

theorem le_failMismatched (m : Machine) :
    m.complaints.length ≤ m.failMismatched.complaints.length := by
  rw [complaints_failMismatched]
  exact le_complain m _

theorem lt_failMismatched {m : Machine} (hr : m.recovering = false) :
    m.complaints.length < m.failMismatched.complaints.length := by
  rw [complaints_failMismatched]
  exact lt_complain hr _

theorem le_failNoWay (m : Machine) (offset : Nat) :
    m.complaints.length ≤ (m.failNoWay offset).complaints.length := by
  simp only [failNoWay, complaints_giveUp]
  exact le_complainAt m _ _

theorem lt_failNoWay {m : Machine} (hr : m.recovering = false) (offset : Nat) :
    m.complaints.length < (m.failNoWay offset).complaints.length := by
  simp only [failNoWay, complaints_giveUp]
  exact lt_complainAt hr _ _

theorem le_drop? {m m' : Machine} (h : m.drop? = some m') :
    m.complaints.length ≤ m'.complaints.length := by
  unfold drop? at h
  split at h
  · rw [Option.some.injEq] at h
    subst h
    simpa using le_complain m _
  · cases h

theorem lt_drop? {m m' : Machine} (hr : m.recovering = false) (h : m.drop? = some m') :
    m.complaints.length < m'.complaints.length := by
  unfold drop? at h
  split at h
  · rw [Option.some.injEq] at h
    subst h
    simpa using lt_complain hr _
  · cases h

theorem le_accept (ks : List Kind) (supposed : List Tree) (rest : List Item) (m : Machine) :
    m.complaints.length ≤ (m.accept ks supposed rest).complaints.length := by
  unfold accept
  split
  · simp
  · split
    · next m' hm => simpa using le_drop? hm
    · split
      · simpa using le_complain m _
      · exact le_failMismatched m

/-- A token is accepted without a complaint only if it fits. -/
theorem accept_eq {ks : List Kind} {supposed : List Tree} {rest : List Item} {m : Machine}
    (hr : m.recovering = false)
    (h : (m.accept ks supposed rest).complaints.length ≤ m.complaints.length) :
    m.kind ∈ ks ∧ m.accept ks supposed rest = m.settle.consume.setTodo rest := by
  unfold accept at h ⊢
  split
  · next hk => exact ⟨by simpa using hk, rfl⟩
  · next hk =>
      simp only [hk, Bool.false_eq_true, if_false] at h
      split at h
      · next m' hm =>
          have hlt := lt_drop? hr hm
          simp only [complaints_setTodo, complaints_consume] at h
          omega
      · split at h
        · simp only [complaints_setTodo, complaints_addKids] at h
          have hlt := lt_complain hr (.missing m.expected m.token.text)
          omega
        · have hlt := lt_failMismatched hr
          omega

theorem le_take (ways : List (List Item)) (f : Forecast) (m : Machine) :
    m.complaints.length ≤ (m.take ways f).complaints.length := by
  unfold take
  split
  · exact le_failNoWay m _
  · simp

theorem take_eq {ways : List (List Item)} {f : Forecast} {m : Machine}
    (hr : m.recovering = false)
    (h : (m.take ways f).complaints.length ≤ m.complaints.length) :
    ∃ n, f = .way n ∧ m.take ways f = m.setTodo (ways[n]?.getD []) := by
  cases f with
  | stuck offset =>
      have hlt := lt_failNoWay hr offset
      simp only [take] at h
      omega
  | way n => exact ⟨n, rfl, rfl⟩

theorem le_check {afterRound : Bool} {m : Machine} {go : Machine → Machine}
    (hgo : ∀ m' : Machine, m'.complaints.length ≤ (go m').complaints.length) :
    m.complaints.length ≤ (m.check afterRound go).complaints.length := by
  unfold check
  split
  · exact hgo m
  · split
    · refine Nat.le_trans ?_ (hgo _)
      simpa using le_complain m _
    · split
      · next m' hm => exact Nat.le_trans (le_drop? hm) (hgo m')
      · exact le_failMismatched m

/-- A check without a complaint lets the reading go on as it is. -/
theorem check_eq {afterRound : Bool} {m : Machine} {go : Machine → Machine}
    (hgo : ∀ m' : Machine, m'.complaints.length ≤ (go m').complaints.length)
    (hr : m.recovering = false)
    (h : (m.check afterRound go).complaints.length ≤ m.complaints.length) :
    m.check afterRound go = go m := by
  unfold check at h ⊢
  split
  · rfl
  · next hk =>
      simp only [hk, Bool.false_eq_true, if_false] at h
      split at h
      · have hlt := lt_complain hr (.extraneous m.token.text m.expected)
        refine absurd (Nat.lt_of_lt_of_le hlt (Nat.le_trans ?_ h)) (Nat.lt_irrefl _)
        refine Nat.le_trans ?_ (hgo _)
        simp
      · split at h
        · next m' hm =>
            have hlt := lt_drop? hr hm
            have hle := hgo m'
            omega
        · have hlt := lt_failMismatched hr
          omega

theorem le_step (m : Machine) : m.complaints.length ≤ m.step.complaints.length := by
  unfold step
  split
  · exact Nat.le_refl _
  · split
    · simp
    · exact le_accept _ _ _ m
    · exact le_accept _ _ _ m
    · simp
    · simp
    · exact le_check fun m' => le_take _ _ m'
    · exact le_check fun m' => le_take _ _ m'
    · exact le_check fun m' => by simp
    · exact le_check fun m' => by simp

theorem le_run (n : Nat) (m : Machine) :
    m.complaints.length ≤ (run n m).complaints.length := by
  induction n generalizing m with
  | zero => exact Nat.le_refl _
  | succ n ih =>
      unfold run
      split
      · exact Nat.le_refl _
      · exact Nat.le_trans (le_step m) (ih m.step)

/-- A step without a complaint is a move. -/
theorem step_move {m : Machine} {f : Frame} {fs : List Frame} (hs : m.stack = f :: fs)
    (hg : guidedAll f.todo = true) (hr : m.recovering = false)
    (hc : m.step.complaints.length ≤ m.complaints.length) : Move m m.step := by
  unfold step at hc ⊢
  simp only [hs] at hc ⊢
  cases ht : f.todo with
  | nil => exact Move.leave hs ht
  | cons x rest =>
      rw [ht] at hg
      cases x with
      | token k =>
          simp only [ht] at hc ⊢
          obtain ⟨hk, he⟩ := accept_eq hr hc
          rw [he]
          exact Move.token hs ht hk
      | oneOf ks =>
          simp only [ht] at hc ⊢
          obtain ⟨hk, he⟩ := accept_eq hr hc
          rw [he]
          exact Move.oneOf hs ht hk
      | rule r level => exact Move.enter hs ht
      | fold limit => exact Move.fold hs ht
      | choice g alternatives =>
          simp only [ht] at hc ⊢
          have he := check_eq (fun m' => le_take _ _ m') hr hc
          rw [he] at hc ⊢
          obtain ⟨n, hn, hw⟩ := take_eq hr hc
          simp only [guidedAll, guided, Bool.and_eq_true, decide_eq_true_eq] at hg
          have hlt := choose_lt hg.1.1 hn
          rw [hw, List.getElem?_map, List.getElem?_eq_getElem hlt, Option.map_some,
            Option.getD_some]
          exact Move.turn hs ht (Turn.choice (List.getElem_mem hlt))
      | optional g body =>
          simp only [ht] at hc ⊢
          have he := check_eq (fun m' => le_take _ _ m') hr hc
          rw [he] at hc ⊢
          obtain ⟨n, hn, hw⟩ := take_eq hr hc
          have hlt := optionalForecast_lt hn
          rw [hw]
          match n, hlt with
          | 0, _ => exact Move.turn hs ht Turn.take
          | 1, _ => exact Move.turn hs ht Turn.pass
      | loop g body =>
          simp only [ht] at hc ⊢
          have he := check_eq (fun m' => by simp) hr hc
          rw [he]
          split
          · next henter =>
              simp only [enters, Bool.and_eq_true] at henter
              exact Move.turn hs ht (Turn.start henter.1.1)
          · exact Move.turn hs ht Turn.skip
      | again g body =>
          simp only [ht] at hc ⊢
          have he := check_eq (fun m' => by simp) hr hc
          rw [he]
          split
          · next henter =>
              simp only [enters, Bool.and_eq_true] at henter
              exact Move.turn hs ht (Turn.round henter.1.1)
          · exact Move.turn hs ht Turn.stop

end Machine

end CommandShell.Parse
