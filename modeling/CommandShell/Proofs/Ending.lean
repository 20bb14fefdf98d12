import CommandShell.Proofs.Acts

/-! # Every reading ends

A number that every act of the reader makes smaller. Each item has a weight, which a step in its
rule uses up; what the rounds of a loop cost again is lent by the token that starts them, and
giving up a rule without passing over a token uses up one of the finitely many places. -/

namespace CommandShell

namespace Grammar

/-- The most steps in which the items of a rule are read, rounds of loops apart. -/
def ruleWeight : Rule → Nat
  | .unquoted => 1
  | .singleQuoted => 3
  | .backQuoted | .doubleQuoted => 5
  | .quoted => 20
  | .argument => 27
  | .call => 35
  | .redirection => 67
  | .pipe => 76
  | .atom => 99
  | .command => 117
  | .line => 121

mutual
def weight : Item → Nat
  | .token _ | .oneOf _ | .fold _ | .loop _ _ | .again _ _ => 1
  | .rule r _ => ruleWeight r + 2
  | .choice _ alternatives => 1 + weightSome alternatives
  | .optional _ body => 1 + weightAll body

def weightAll : List Item → Nat
  | [] => 0
  | x :: xs => weight x + weightAll xs

def weightSome : List (List Item) → Nat
  | [] => 0
  | xs :: rest => weightAll xs + weightSome rest
end

theorem weightAll_cons (x : Item) (xs : List Item) :
    weightAll (x :: xs) = weight x + weightAll xs := rfl

theorem weight_rule (r : Rule) (level : Nat) : weight (.rule r level) = ruleWeight r + 2 := rfl

theorem weight_fold (limit : Nat) : weight (.fold limit) = 1 := rfl

theorem weight_pos (x : Item) : 0 < weight x := by
  cases x <;> simp only [weight] <;> omega

/-- What a token can lend, at most. -/
def reserve : Nat := 128

/-- What the loops that a token can start before it is read cost at most. -/
def ruleLift : Rule → Nat
  | .unquoted | .singleQuoted | .redirection => 0
  | .backQuoted | .doubleQuoted | .quoted | .argument | .atom => 2
  | .call | .pipe | .command | .line => 71

mutual
def lift : Item → Nat
  | .token _ | .oneOf _ | .fold _ => 0
  | .rule r _ => ruleLift r
  | .choice _ alternatives => liftSome alternatives
  | .optional _ body => liftAll body
  | .loop _ body | .again _ body =>
      if isBound body then reserve else weightAll body + 1 + liftAll body

def liftAll : List Item → Nat
  | [] => 0
  | x :: xs => max (lift x) (if canSkip x then liftAll xs else 0)

def liftSome : List (List Item) → Nat
  | [] => 0
  | xs :: rest => max (liftAll xs) (liftSome rest)
end

/-- What the next token can still lend at a place. Where it cannot be read, it has not lent
anything. -/
def prospect (k : Kind) : List Item → Nat
  | [] => reserve
  | x :: xs =>
      if k ∈ first x then lift x
      else if canSkip x then prospect k xs
      else reserve

def cost (k : Kind) (todo : List Item) : Nat := weightAll todo + prospect k todo

theorem ruleWeight_eq (r : Rule) : ruleWeight r = weightAll (body r) := by cases r <;> rfl

theorem prospect_le {r : Rule} {todo : List Item} (h : todo ∈ places r) (k : Kind) :
    prospect k todo ≤ reserve := by
  have all : ∀ r : Rule, ∀ todo ∈ along (body r), ∀ k ∈ Kind.all,
      prospect k todo ≤ reserve := by
    intro r
    cases r <;> decide +kernel
  exact all r todo (mem_along h) k (Kind.mem_all k)

/-- A decision costs something, whichever way it goes. -/
theorem cost_lt_of_mem_turns {r : Rule} {k : Kind} {todo next : List Item} (h : todo ∈ places r)
    (hn : next ∈ turns k todo) : cost k next < cost k todo := by
  have all : ∀ r : Rule, ∀ todo ∈ along (body r), ∀ k ∈ Kind.all, ∀ next ∈ turns k todo,
      cost k next < cost k todo := by
    intro r
    cases r <;> decide +kernel
  exact all r todo (mem_along h) k (Kind.mem_all k) next hn

/-- At the end of the text no round of a loop starts. -/
theorem weightAll_lt_of_mem_turns {r : Rule} {todo next : List Item} (h : todo ∈ places r)
    (hn : next ∈ turns .finish todo) : weightAll next < weightAll todo := by
  have all : ∀ r : Rule, ∀ todo ∈ along (body r), ∀ next ∈ turns .finish todo,
      weightAll next < weightAll todo := by
    intro r
    cases r <;> decide +kernel
  exact all r todo (mem_along h) next hn

theorem prospect_body_le (r : Rule) (level : Nat) (k : Kind) (rest : List Item) :
    prospect k (body r) ≤ prospect k (.rule r level :: rest) := by
  have all : ∀ r : Rule, ∀ k ∈ Kind.all, k ∈ starts r → prospect k (body r) ≤ ruleLift r := by
    intro r
    cases r <;> decide +kernel
  have hlift := all r k (Kind.mem_all k)
  by_cases hk : k ∈ starts r
  · simpa [prospect, first, lift, hk] using hlift hk
  · simpa [prospect, first, canSkip, hk] using prospect_le (body_mem_places r) k

end Grammar

namespace Parse

open Grammar

namespace Site

theorem same_iff {a b : Site} : same a b = true ↔ a = b := by
  cases a
  cases b
  simp [same, Item.sameAll_iff]

/-- All places of all rules. -/
def all : List Site := Rule.all.flatMap fun r => (places r).map (Site.mk r)

/-- The number of places. -/
def total : Nat := 99

theorem length_all : all.length = total := by decide +kernel

theorem mem_all {r : Rule} {todo : List Item} (h : todo ∈ places r) : ⟨r, todo⟩ ∈ all := by
  have hr : r ∈ Rule.all := by cases r <;> decide
  exact List.mem_flatMap.mpr ⟨r, hr, List.mem_map_of_mem h⟩

/-- The number of places that are not in a list. -/
def unseen (sites : List Site) : Nat := all.countP fun s => !sites.any (same s)

theorem unseen_lt (sites : List Site) : unseen sites < total + 1 := by
  have h : unseen sites ≤ all.length := List.countP_le_length
  rw [length_all] at h
  exact Nat.lt_succ_of_le h

theorem unseen_append_lt {sites : List Site} {s : Site} (hs : s ∈ all)
    (hn : sites.any (same s) = false) :
    unseen (sites ++ [s]) < unseen sites := by
  obtain ⟨before, after, hall⟩ := List.append_of_mem hs
  have hle : ∀ ss : List Site, ss.countP (fun a => !(sites ++ [s]).any (same a)) ≤
      ss.countP fun a => !sites.any (same a) := by
    intro ss
    refine List.countP_mono_left fun a _ ha => ?_
    simp only [List.any_append, Bool.not_or, Bool.and_eq_true] at ha
    exact ha.1
  have hself : same s s = true := same_iff.mpr rfl
  unfold unseen
  rw [hall, List.countP_append, List.countP_append, List.countP_cons, List.countP_cons]
  have hb := hle before
  have ha := hle after
  simp only [List.any_append, List.any_cons, hself, hn, Bool.true_or, Bool.or_true, Bool.not_true,
    Bool.not_false, Bool.false_eq_true, if_false, if_true] at ha hb ⊢
  omega

end Site

namespace View

/-- The number of times that rules can still be given up without passing over a token. -/
def fresh (v : View) : Nat :=
  match v.givenUp with
  | some (n, sites) => if n = v.count then Site.unseen sites else Site.total + 1
  | none => Site.total + 1

theorem fresh_le (v : View) : v.fresh ≤ Site.total + 1 := by
  unfold fresh
  split
  · next sites _ =>
      have := Site.unseen_lt sites
      split <;> omega
  · exact Nat.le_refl _

/-- The weight of what is left of all rules. -/
def load (ts : List Task) : Nat := (ts.map fun t => weightAll t.todo + 1).foldr (· + ·) 0

theorem load_cons (t : Task) (ts : List Task) :
    load (t :: ts) = weightAll t.todo + 1 + load ts := rfl

theorem load_todo (t : Task) (ts : List Task) (todo : List Item) :
    load ({ t with todo := todo } :: ts) = weightAll todo + 1 + load ts := rfl

/-- What the next token can still lend to the rule on top. -/
def loan (v : View) : Nat :=
  match v.tasks with
  | [] => 0
  | t :: _ => prospect (kindAt v.kinds 0) t.todo

theorem loan_cons {v : View} {t : Task} {ts : List Task} (h : v.tasks = t :: ts) :
    v.loan = prospect (kindAt v.kinds 0) t.todo := by simp [loan, h]

theorem loan_le {v : View} (h : Placed v.tasks) : v.loan ≤ reserve := by
  cases ht : v.tasks with
  | nil => simp [loan, ht]
  | cons t ts =>
      rw [loan_cons ht]
      rw [ht] at h
      exact prospect_le h.1 _

/-- What a token pays for. -/
def price : Nat := reserve * (Site.total + 2)

/-- Every act makes this smaller. -/
def measure (v : View) : Nat :=
  if v.rest = [] then load v.tasks
  else price * v.rest.length + (reserve * v.fresh + (load v.tasks + v.loan))

theorem measure_pos {v : View} (h : v.tasks ≠ []) : 0 < v.measure := by
  obtain ⟨t, ts, ht⟩ := List.exists_cons_of_ne_nil h
  unfold measure
  rw [ht, load_cons]
  split <;> omega

section Measure

variable {v v' : View} {t : Task} {ts : List Task}

theorem measure_lt_of_kept (hr : v'.rest = v.rest)
    (hnil : v.rest = [] → load v'.tasks < load v.tasks)
    (hcons : v.rest ≠ [] → reserve * v'.fresh + (load v'.tasks + v'.loan) <
      reserve * v.fresh + (load v.tasks + v.loan)) : measure v' < measure v := by
  unfold measure
  rw [hr]
  split
  · next h => exact hnil h
  · next h => exact Nat.add_lt_add_left (hcons h) _

/-- An act of the rule on top alone. -/
theorem measure_lt_of_tasks {tasks : List Task} (hload : load tasks < load v.tasks)
    (hloan : ({ v with tasks := tasks } : View).loan ≤ v.loan) :
    measure { v with tasks := tasks } < measure v := by
  refine measure_lt_of_kept rfl (fun _ => hload) ?_
  intro _
  exact Nat.add_lt_add_left (Nat.add_lt_add_of_lt_of_le hload hloan) _

/-- A token that is read or passed over pays for what it lends next and for all places anew. -/
theorem measure_lt_of_spent (hr : v'.rest.length < v.rest.length)
    (hl : load v'.tasks + v'.loan < load v.tasks + reserve) : measure v' < measure v := by
  have hne : v.rest ≠ [] := List.ne_nil_of_length_pos (by omega)
  have hfresh : reserve * v'.fresh ≤ reserve * (Site.total + 1) :=
    Nat.mul_le_mul_left _ v'.fresh_le
  have hprice : price = reserve * (Site.total + 1) + reserve := by
    simp only [price, Nat.mul_add]
    omega
  have hmul : price * v'.rest.length + price ≤ price * v.rest.length :=
    calc price * v'.rest.length + price = price * (v'.rest.length + 1) := (Nat.mul_succ _ _).symm
      _ ≤ price * v.rest.length := Nat.mul_le_mul_left _ hr
  unfold measure
  rw [if_neg hne]
  split <;> omega

theorem setTodo_of_tasks (h : v.tasks = t :: ts) (todo : List Item) :
    v.setTodo todo = { v with tasks := { t with todo := todo } :: ts } := by
  simp [setTodo, h]

/-- Passing over tokens leaves the view as it is, or there are none left, or there are fewer
left. -/
theorem Mended.rest_cases (h : Mended v v') :
    v' = v ∨ (v.rest = [] ∧ v'.rest = []) ∨ v'.rest.length < v.rest.length := by
  cases hr : v.rest with
  | nil =>
      refine Or.inr (Or.inl ⟨rfl, ?_⟩)
      cases h <;> simp [advance, hr]
  | cons a as =>
      cases h with
      | skip n =>
          cases n with
          | zero => exact Or.inl (advance_zero v)
          | succ n =>
              have hdrop : (v.advance (n + 1)).rest = as.drop n := by simp [advance, hr]
              refine Or.inr (Or.inr ?_)
              rw [hdrop, List.length_drop, List.length_cons]
              omega
      | drop => exact Or.inr (Or.inr (by simp [advance, hr]))

theorem kindAt_kinds_of_nil (h : v.rest = []) : kindAt v.kinds 0 = .finish := by
  simp [kinds, h, kindAt]

theorem kindAt_kinds (h : v.finish.kind = .finish) : kindAt v.kinds 0 = v.kind := by
  cases hr : v.rest <;> simp [kinds, kind, kindAt, hr, h]

theorem prospect_of_token {x : Item} {ks : List Kind} {k : Kind} (hx : tokenKinds? x = some ks)
    (hk : k ∉ ks) (rest : List Item) : prospect k (x :: rest) = reserve := by
  cases x with
  | token l =>
      obtain rfl := Option.some.inj hx
      simp [prospect, first, canSkip, hk]
  | oneOf ls =>
      obtain rfl := Option.some.inj hx
      simp [prospect, first, canSkip, hk]
  | _ => cases hx

/-- Going on after a decision. -/
theorem measure_turn (hs : v.tasks = t :: ts) (hp : Placed v.tasks) (hv : Mended v v')
    {mayEnd : Bool} {next : List Item}
    (h : resolve t.level mayEnd v'.kinds t.todo = some next) :
    measure (v'.setTodo next) < measure v := by
  have htop := hp
  rw [hs] at htop
  have hturn := mem_turns_of_resolve htop.1 h
  have hcost := cost_lt_of_mem_turns htop.1 hturn
  have hnil : v'.rest = [] → weightAll next < weightAll t.todo := by
    intro hr
    rw [kindAt_kinds_of_nil hr] at hturn
    exact weightAll_lt_of_mem_turns htop.1 hturn
  have hs' : v'.tasks = t :: ts := hv.tasks_eq.trans hs
  have hload : load (v'.setTodo next).tasks = weightAll next + 1 + load ts := by
    rw [setTodo_of_tasks hs', load_cons]
  have hloan : (v'.setTodo next).loan = prospect (kindAt v'.kinds 0) next := by
    rw [setTodo_of_tasks hs']
    rfl
  have hrest : (v'.setTodo next).rest = v'.rest := by rw [setTodo_of_tasks hs']
  unfold cost at hcost
  rcases hv.rest_cases with rfl | ⟨hr, hr'⟩ | hlt
  · have hfresh : (v'.setTodo next).fresh = v'.fresh := by
      rw [setTodo_of_tasks hs']
      rfl
    refine measure_lt_of_kept hrest ?_ ?_
    · intro hr
      have hlt := hnil hr
      rw [hload, hs, load_cons]
      omega
    · intro _
      rw [hload, hloan, hfresh, hs, load_cons, loan_cons hs]
      omega
  · refine measure_lt_of_kept (by rw [hrest, hr, hr']) ?_ (fun hne => absurd hr hne)
    intro _
    have hlt := hnil hr'
    rw [hload, hs, load_cons]
    omega
  · refine measure_lt_of_spent (by rwa [hrest]) ?_
    have hle := prospect_le htop.1 (kindAt v'.kinds 0)
    rw [hload, hloan, hs, load_cons]
    omega

/-- Without a token passed over, the place is one at which nothing was given up before. -/
theorem fresh_giveUp_lt (hs : v.tasks = t :: ts) (hp : Placed v.tasks) (hr : v.repeated = false) :
    (v.giveUp 0 v.count).fresh < v.fresh := by
  have hsite : v.site ∈ Site.all := by
    rw [hs] at hp
    simp only [site, hs]
    exact Site.mem_all hp.1
  have hnow : (v.giveUp 0 v.count).fresh = Site.unseen (v.sites ++ [v.site]) := by
    simp [View.giveUp, fresh, advance]
  rw [hnow]
  unfold repeated at hr
  unfold fresh sites
  cases hg : v.givenUp with
  | none => exact Site.unseen_lt _
  | some g =>
      simp only [hg, Option.map_some, Option.getD_some] at hr ⊢
      split
      · next hcount =>
          simp only [hcount, decide_true, Bool.true_and] at hr
          exact Site.unseen_append_lt hsite hr
      · exact Site.unseen_lt _

theorem measure_giveUp (hs : v.tasks ≠ []) (hp : Placed v.tasks) (hv : Mended v v') {n c : Nat}
    (hn : n = 0 → v'.repeated = false ∧ c = v'.count) : measure (v'.giveUp n c) < measure v := by
  obtain ⟨t, ts, hts⟩ := List.exists_cons_of_ne_nil hs
  have hts' : v'.tasks = t :: ts := hv.tasks_eq.trans hts
  have htasks : (v'.giveUp n c).tasks = ts := by simp [View.giveUp, hts']
  have hloan : (v'.giveUp n c).loan ≤ reserve := by
    apply loan_le
    rw [htasks]
    have h := hp.tail
    rwa [hts] at h
  have hload : load (v'.giveUp n c).tasks < load v.tasks := by
    rw [htasks, hts, load_cons]
    omega
  have hrest : (v'.giveUp n c).rest = v'.rest.drop n := rfl
  have hspent : (v'.giveUp n c).rest.length < v.rest.length → measure (v'.giveUp n c) < measure v :=
    fun hlt => measure_lt_of_spent hlt (by omega)
  have hnone : v.rest = [] → (v'.giveUp n c).rest = [] → measure (v'.giveUp n c) < measure v :=
    fun hr hr' => measure_lt_of_kept (hr'.trans hr.symm) (fun _ => hload) (fun hne => absurd hr hne)
  rcases hv.rest_cases with rfl | ⟨hr, hr'⟩ | hlt
  · cases n with
    | zero =>
        obtain ⟨hrepeated, rfl⟩ := hn rfl
        have hfresh := fresh_giveUp_lt hts hp hrepeated
        refine measure_lt_of_kept (by simp [hrest]) (fun _ => hload) ?_
        intro _
        have hmul :=
          calc reserve * (v'.giveUp 0 v'.count).fresh + reserve
              = reserve * ((v'.giveUp 0 v'.count).fresh + 1) := (Nat.mul_succ _ _).symm
            _ ≤ reserve * v'.fresh := Nat.mul_le_mul_left _ hfresh
        omega
    | succ n =>
        cases hr : v'.rest with
        | nil => exact hnone hr (by simp [hrest, hr])
        | cons a as =>
            apply hspent
            rw [hrest, hr, List.drop_succ_cons, List.length_drop, List.length_cons]
            omega
  · exact hnone hr (by simp [hrest, hr'])
  · refine hspent (Nat.lt_of_le_of_lt ?_ hlt)
    rw [hrest, List.length_drop]
    exact Nat.sub_le _ _

theorem measure_read (hs : v.tasks = t :: ts) {x : Item} {rest : List Item}
    (ht : t.todo = x :: rest) {n : Nat} (hn : 0 < n)
    (hloan : ({ v.advance n with givenUp := none }.setTodo rest).loan ≤ reserve) :
    measure ({ v.advance n with givenUp := none }.setTodo rest) < measure v := by
  rw [setTodo_of_tasks (v := { v.advance n with givenUp := none }) hs] at hloan ⊢
  have hload : load ({ t with todo := rest } :: ts) < load v.tasks := by
    have hx := weight_pos x
    rw [hs, load_todo, load_cons, ht, weightAll_cons]
    omega
  cases hr : v.rest with
  | nil =>
      refine measure_lt_of_kept ?_ (fun _ => hload) (fun hne => absurd hr hne)
      simp [advance, hr]
  | cons a as =>
      refine measure_lt_of_spent ?_ ?_
      · simp only [advance, hr, List.length_drop, List.length_cons]
        omega
      · exact Nat.add_lt_add_of_lt_of_le hload hloan

end Measure

/-- What a step does makes the measure smaller. -/
theorem Act.measure_lt {v v' : View} (h : Act v v') (hp : Placed v.tasks)
    (hf : v.finish.kind = .finish) : measure v' < measure v := by
  have hloan := loan_le (h.placed hp)
  cases h with
  | leave hs ht =>
      apply measure_lt_of_tasks
      · rw [hs, load_cons]
        omega
      · rw [loan_cons hs, ht]
        exact hloan
  | fold hs ht =>
      rw [setTodo_of_tasks hs]
      apply measure_lt_of_tasks
      · rw [hs, load_todo, load_cons, ht, weightAll_cons, weight_fold]
        omega
      · rw [loan_cons hs, ht]
        exact Nat.le_refl _
  | enter hs ht =>
      apply measure_lt_of_tasks
      · rw [hs, load_cons, load_todo, load_cons, ht, weightAll_cons, weight_rule, ruleWeight_eq]
        simp only
        omega
      · rw [loan_cons hs, ht]
        exact prospect_body_le _ _ _ _
  | read n hs ht hx hn => exact measure_read hs ht hn hloan
  | @suppose _ _ x _ _ hs ht hx hk =>
      rw [setTodo_of_tasks hs] at hloan ⊢
      apply measure_lt_of_tasks
      · have hpos := weight_pos x
        rw [hs, load_todo, load_cons, ht, weightAll_cons]
        omega
      · rwa [loan_cons hs, ht, kindAt_kinds hf, prospect_of_token hx hk]
  | turn b hs hv h => exact measure_turn hs hp hv h
  | giveUp hs hv hn => exact measure_giveUp hs hp hv hn

end View

namespace Machine

/-- After as many steps as its measure says the reading is over. -/
theorem stack_run_eq_nil {n : Nat} {m : Machine} (hp : Placed m.view.tasks)
    (hf : m.view.finish.kind = .finish) (hn : m.view.measure ≤ n) : (m.run n).stack = [] := by
  induction n generalizing m with
  | zero =>
      cases hs : m.stack with
      | nil => simpa [run] using hs
      | cons f fs =>
          have hpos : 0 < m.view.measure := View.measure_pos (by simp [view, hs])
          omega
  | succ n ih =>
      unfold run
      cases hs : m.stack with
      | nil => simp [hs]
      | cons f fs =>
          have hact := act_step hs
          have hlt := hact.measure_lt hp hf
          simp only [List.isEmpty_cons, Bool.false_eq_true, if_false]
          refine ih (hact.placed hp) ?_ (by omega)
          rw [hact.finish_eq]
          exact hf

/-- The reader before tokens, whatever text they come from. -/
def facing (r : Rule) (tokens : List Token) (place : Nat × Nat) (length : Nat) : Machine :=
  { Machine.start r [] with
    rest := tokens
    finish := ⟨.finish, "<EOF>".toList, place.1, place.2, length⟩ }

theorem start_eq_facing (r : Rule) (text : Text) : Machine.start r text =
    facing r (Token.scan text) (Token.advanceAll (1, 0) text) text.length := rfl

theorem measure_facing_le (r : Rule) (tokens : List Token) (place : Nat × Nat) (length : Nat) :
    (facing r tokens place length).view.measure ≤ bound tokens.length := by
  have hload : View.load (facing r tokens place length).view.tasks ≤ 122 := by
    have hw : weightAll (body r) ≤ 121 := by
      rw [← ruleWeight_eq]
      cases r <;> decide
    change weightAll (body r) + 1 + 0 ≤ 122
    omega
  have hloan : (facing r tokens place length).view.loan ≤ reserve :=
    View.loan_le (placed_start r [])
  have hfresh := (facing r tokens place length).view.fresh_le
  have hrest : (facing r tokens place length).view.rest = tokens := rfl
  unfold View.measure View.price bound
  rw [hrest]
  unfold reserve Site.total at *
  split <;> omega

theorem measure_start_le (r : Rule) (text : Text) :
    (Machine.start r text).view.measure ≤ bound (Token.scan text).length := by
  rw [start_eq_facing]
  exact measure_facing_le r _ _ _

end Machine

/-- Every reading ends within its bound. -/
theorem stack_read_eq_nil (r : Rule) (text : Text) :
    ((Machine.start r text).run (bound (Token.scan text).length)).stack = [] :=
  Machine.stack_run_eq_nil (placed_start r text) rfl (Machine.measure_start_le r text)

end Parse

end CommandShell
