import CommandShell.Proofs.Acts

/-! # Tokens without their places

How a text is read depends on the kinds of its tokens and, in what it says about them, on their
texts. Where they stand shows in the places of complaints and nowhere else: reading tokens whose
places have been forgotten is reading them and then forgetting their places. -/

namespace CommandShell

/-- The token at no place in particular. -/
def Token.unplaced (t : Token) : Token := { t with line := 0, column := 0, start := 0 }

namespace Tree

mutual
def unplaced : Tree → Tree
  | .node r kids => .node r (unplacedAll kids)
  | .leaf t => .leaf t.unplaced
  | .skipped t => .skipped t.unplaced
  | .missing k => .missing k

def unplacedAll : List Tree → List Tree
  | [] => []
  | t :: ts => unplaced t :: unplacedAll ts
end

theorem unplacedAll_eq_map (ts : List Tree) : unplacedAll ts = ts.map unplaced := by
  induction ts with
  | nil => rfl
  | cons t ts ih => rw [unplacedAll, ih, List.map_cons]

@[simp] theorem unplaced_node (r : Rule) (kids : List Tree) :
    unplaced (.node r kids) = .node r (kids.map unplaced) := by
  rw [unplaced, unplacedAll_eq_map]

@[simp] theorem unplaced_leaf (t : Token) : unplaced (.leaf t) = .leaf t.unplaced := rfl

@[simp] theorem unplaced_skipped (t : Token) : unplaced (.skipped t) = .skipped t.unplaced := rfl

@[simp] theorem unplaced_missing (k : Kind) : unplaced (.missing k) = .missing k := rfl

mutual
/-- The tree with its tokens looked at. -/
def mapTokens (φ : Token → Token) : Tree → Tree
  | .node r kids => .node r (mapTokensAll φ kids)
  | .leaf t => .leaf (φ t)
  | .skipped t => .skipped (φ t)
  | .missing k => .missing k

def mapTokensAll (φ : Token → Token) : List Tree → List Tree
  | [] => []
  | t :: ts => mapTokens φ t :: mapTokensAll φ ts
end

section MapTokens

variable (φ : Token → Token)

theorem mapTokensAll_eq_map (ts : List Tree) : mapTokensAll φ ts = ts.map (mapTokens φ) := by
  induction ts with
  | nil => rfl
  | cons t ts ih => rw [mapTokensAll, ih, List.map_cons]

@[simp] theorem mapTokens_node (r : Rule) (kids : List Tree) :
    mapTokens φ (.node r kids) = .node r (kids.map (mapTokens φ)) := by
  rw [mapTokens, mapTokensAll_eq_map]

@[simp] theorem mapTokens_leaf (t : Token) : mapTokens φ (.leaf t) = .leaf (φ t) := rfl

theorem rule?_mapTokens (t : Tree) : (t.mapTokens φ).rule? = t.rule? := by
  cases t <;> rfl

theorem kids_mapTokens (t : Tree) : (t.mapTokens φ).kids = t.kids.map (mapTokens φ) := by
  cases t with
  | node r kids =>
      rw [mapTokens_node]
      rfl
  | leaf t => rfl
  | skipped t => rfl
  | missing k => rfl

end MapTokens

end Tree

namespace Token

@[simp] theorem kind_unplaced (t : Token) : t.unplaced.kind = t.kind := rfl

@[simp] theorem text_unplaced (t : Token) : t.unplaced.text = t.text := rfl

/-- The tokens of runs, at no place in particular. -/
def ofRun (r : Kind × Text) : Token := ⟨r.1, r.2, 0, 0, 0⟩

theorem map_unplaced_locate (rs : List (Kind × Text)) (place : Nat × Nat) (start : Nat) :
    (locate place start rs).map unplaced = rs.map ofRun := by
  induction rs generalizing place start with
  | nil => rfl
  | cons r rs ih => rw [locate, List.map_cons, ih, List.map_cons]; rfl

theorem map_unplaced_scan (t : Text) : (scan t).map unplaced = (runs t).map ofRun :=
  map_unplaced_locate _ _ _

end Token

def Complaint.unplaced (c : Complaint) : Complaint := { c with line := 0, column := 0 }

namespace Parse

def Frame.unplaced (f : Frame) : Frame := { f with kids := f.kids.map Tree.unplaced }

namespace Machine

def unplaced (m : Machine) : Machine :=
  { m with
    stack := m.stack.map Frame.unplaced
    rest := m.rest.map Token.unplaced
    finish := m.finish.unplaced
    complaints := m.complaints.map Complaint.unplaced
    result := m.result.map Tree.unplaced }

/-! ## What the machine looks at -/

section Looks

variable (m : Machine)

@[simp] theorem token_unplaced : m.unplaced.token = m.token.unplaced := by
  unfold token unplaced
  cases m.rest <;> rfl

@[simp] theorem tokenAt_unplaced (n : Nat) : m.unplaced.tokenAt n = (m.tokenAt n).unplaced := by
  unfold tokenAt unplaced
  rw [List.getElem?_map]
  cases m.rest[n]? <;> rfl

@[simp] theorem kind_unplaced : m.unplaced.kind = m.kind := by
  rw [kind, token_unplaced, Token.kind_unplaced, kind]

@[simp] theorem kinds_unplaced : m.unplaced.kinds = m.kinds := by
  rw [kinds, unplaced, List.map_map]
  rfl

@[simp] theorem top_unplaced : m.unplaced.top = m.top := by
  unfold top unplaced
  cases m.stack <;> rfl

@[simp] theorem callers_unplaced : m.unplaced.callers = m.callers := by
  rw [callers, unplaced, ← List.map_drop, List.map_map]
  rfl

@[simp] theorem site_unplaced : m.unplaced.site = m.site := by
  unfold site unplaced
  cases m.stack <;> rfl

@[simp] theorem expected_unplaced : m.unplaced.expected = m.expected := by simp [expected]

@[simp] theorem resume_unplaced : m.unplaced.resume = m.resume := by simp [resume]

@[simp] theorem mayEnd_unplaced : m.unplaced.mayEnd = m.mayEnd := by simp [mayEnd]

@[simp] theorem recovering_unplaced : m.unplaced.recovering = m.recovering := rfl

end Looks

/-! ## What the machine does -/

section Does

variable (m : Machine)

@[simp] theorem addKid_unplaced (t : Tree) :
    m.unplaced.addKid t.unplaced = (m.addKid t).unplaced := by
  obtain ⟨stack, _, _, _, _, _, _, _, _⟩ := m
  cases stack with
  | nil => rfl
  | cons f fs => simp [addKid, unplaced, Frame.unplaced]

@[simp] theorem setTodo_unplaced (todo : List Item) :
    m.unplaced.setTodo todo = (m.setTodo todo).unplaced := by
  obtain ⟨stack, _, _, _, _, _, _, _, _⟩ := m
  cases stack <;> rfl

@[simp] theorem consume_unplaced : m.unplaced.consume = m.consume.unplaced := by
  obtain ⟨stack, rest, _, _, recovering, _, _, _, _⟩ := m
  cases stack <;> cases rest <;> cases recovering <;>
    simp [consume, token, addKid, unplaced, Frame.unplaced]

@[simp] theorem settle_unplaced : m.unplaced.settle = m.settle.unplaced := rfl

@[simp] theorem complainAt_unplaced (t : Token) (trouble : Trouble) :
    m.unplaced.complainAt t.unplaced trouble = (m.complainAt t trouble).unplaced := by
  unfold complainAt
  rw [recovering_unplaced]
  split <;> rfl

@[simp] theorem complain_unplaced (trouble : Trouble) :
    m.unplaced.complain trouble = (m.complain trouble).unplaced := by
  rw [complain, token_unplaced, complainAt_unplaced, complain]

theorem skipUntil_unplaced (ks : List Kind) (ts : List Token) :
    skipUntil ks (ts.map Token.unplaced) m.unplaced = (skipUntil ks ts m).unplaced := by
  induction ts generalizing m with
  | nil => rfl
  | cons t ts ih =>
      rw [List.map_cons, skipUntil, skipUntil, Token.kind_unplaced, consume_unplaced, ih]
      split <;> rfl

@[simp] theorem leave_unplaced : m.unplaced.leave = m.leave.unplaced := by
  obtain ⟨stack, _, _, _, _, _, _, _, _⟩ := m
  match stack with
  | [] => rfl
  | [f] => simp [leave, unplaced, Frame.unplaced]
  | f :: g :: fs => simp [leave, addKid, unplaced, Frame.unplaced]

/-- Pass over tokens until a rule below can go on, and leave the rule on top. -/
theorem skip_unplaced (givenUp : Option (Nat × List Site)) :
    (skipUntil m.unplaced.resume m.unplaced.rest { m.unplaced with givenUp := givenUp }).leave =
      (skipUntil m.resume m.rest { m with givenUp := givenUp }).leave.unplaced := by
  rw [resume_unplaced, ← leave_unplaced, ← skipUntil_unplaced]
  rfl

@[simp] theorem giveUp_unplaced : m.unplaced.giveUp = m.giveUp.unplaced := by
  have hrepeated : m.unplaced.view.repeated = m.view.repeated := by
    unfold View.repeated
    rw [site_view, site_view, site_unplaced]
    rfl
  have hsites : m.unplaced.view.sites = m.view.sites := rfl
  cases hr : m.view.repeated with
  | false =>
      rw [giveUp_eq m.unplaced m.unplaced (by simp [hrepeated, hr]), giveUp_eq m m (by simp [hr]),
        hsites, site_unplaced]
      exact m.skip_unplaced _
  | true =>
      rw [giveUp_eq m.unplaced m.consume.unplaced (by simp [hrepeated, hr]),
        giveUp_eq m m.consume (by simp [hr]), hsites, site_unplaced]
      exact m.consume.skip_unplaced _

@[simp] theorem failMismatched_unplaced : m.unplaced.failMismatched = m.failMismatched.unplaced := by
  simp [failMismatched]

@[simp] theorem failNoWay_unplaced (offset : Nat) :
    m.unplaced.failNoWay offset = (m.failNoWay offset).unplaced := by
  have hrest : m.unplaced.rest.isEmpty = m.rest.isEmpty := List.isEmpty_map
  have hseen : ((m.unplaced.rest.take (offset + 1)).map Token.text).flatten =
      ((m.rest.take (offset + 1)).map Token.text).flatten := by
    rw [unplaced, ← List.map_take, List.map_map]
    rfl
  have hfinish : m.unplaced.finish.text = m.finish.text := rfl
  simp only [failNoWay, hrest, hseen, hfinish, tokenAt_unplaced, complainAt_unplaced,
    giveUp_unplaced]

@[simp] theorem drop?_unplaced : m.unplaced.drop? = m.drop?.map unplaced := by
  simp only [drop?, expected_unplaced, tokenAt_unplaced, Token.kind_unplaced, token_unplaced,
    Token.text_unplaced, complain_unplaced, consume_unplaced, settle_unplaced]
  split <;> rfl

theorem addKids_unplaced (ts : List Tree) :
    (ts.map Tree.unplaced).foldl addKid m.unplaced = (ts.foldl addKid m).unplaced := by
  induction ts generalizing m with
  | nil => rfl
  | cons t ts ih => rw [List.map_cons, List.foldl_cons, addKid_unplaced, ih, List.foldl_cons]

theorem accept_unplaced (ks : List Kind) (supposed : List Tree) (rest : List Item) :
    m.unplaced.accept ks (supposed.map Tree.unplaced) rest =
      (m.accept ks supposed rest).unplaced := by
  unfold accept
  simp only [kind_unplaced, settle_unplaced, consume_unplaced, setTodo_unplaced, drop?_unplaced,
    callers_unplaced, expected_unplaced, token_unplaced, Token.text_unplaced, complain_unplaced,
    addKids_unplaced, failMismatched_unplaced]
  split
  · rfl
  · cases m.drop? with
    | some m' => simp only [Option.map_some, consume_unplaced, setTodo_unplaced]
    | none => simp only [Option.map_none, ← apply_ite unplaced]

theorem check_unplaced (afterRound : Bool) {go : Machine → Machine}
    (hgo : ∀ n : Machine, go n.unplaced = (go n).unplaced) :
    m.unplaced.check afterRound go = (m.check afterRound go).unplaced := by
  unfold check
  simp only [recovering_unplaced, top_unplaced, kind_unplaced, drop?_unplaced, expected_unplaced,
    token_unplaced, Token.text_unplaced, complain_unplaced, resume_unplaced,
    failMismatched_unplaced]
  split
  · exact hgo m
  · split
    · rw [← hgo, ← skipUntil_unplaced]
      rfl
    · cases m.drop? with
      | some m' => exact hgo m'
      | none => rfl

theorem take_unplaced (ways : List (List Item)) (f : Forecast) :
    m.unplaced.take ways f = (m.take ways f).unplaced := by
  cases f with
  | stuck offset => exact m.failNoWay_unplaced offset
  | way n => exact m.setTodo_unplaced _

theorem fold_unplaced : m.unplaced.fold = m.fold.unplaced := by
  obtain ⟨stack, _, _, _, _, _, _, _, _⟩ := m
  cases stack with
  | nil => rfl
  | cons f fs => simp [fold, unplaced, Frame.unplaced]

theorem enter_unplaced (r : Rule) (level : Nat) :
    m.unplaced.enter r level = (m.enter r level).unplaced := rfl

theorem round_unplaced (afterRound : Bool) (g : Guide) (level : Nat) (body rest : List Item) :
    (m.unplaced.check afterRound fun m => m.setTodo
        (if enters g level body m.kinds then body ++ .again g body :: rest else rest)) =
      (m.check afterRound fun m => m.setTodo
        (if enters g level body m.kinds then body ++ .again g body :: rest else rest)).unplaced := by
  apply check_unplaced
  intro n
  rw [kinds_unplaced, setTodo_unplaced]

theorem step_unplaced : m.unplaced.step = m.step.unplaced := by
  cases hs : m.stack with
  | nil =>
      have hu : m.unplaced.stack = [] := by rw [unplaced, hs]; rfl
      simp only [step, hs, hu]
  | cons f fs =>
      have hu : m.unplaced.stack = f.unplaced :: fs.map Frame.unplaced := by
        rw [unplaced, hs]
        rfl
      have htodo : f.unplaced.todo = f.todo := rfl
      have hlevel : f.unplaced.level = f.level := rfl
      simp only [step, hs, hu, htodo, hlevel]
      cases f.todo with
      | nil => exact m.leave_unplaced
      | cons x rest =>
          cases x with
          | token k => exact m.accept_unplaced [k] [.missing k] rest
          | oneOf ks => exact m.accept_unplaced ks [] rest
          | rule r level => simp only [setTodo_unplaced, enter_unplaced]
          | fold limit => simp only [fold_unplaced, setTodo_unplaced]
          | choice g alternatives =>
              apply check_unplaced
              intro n
              rw [mayEnd_unplaced, kinds_unplaced, take_unplaced]
          | optional g body =>
              apply check_unplaced
              intro n
              rw [kinds_unplaced, take_unplaced]
          | loop g body => exact m.round_unplaced false g f.level body rest
          | again g body => exact m.round_unplaced true g f.level body rest

theorem run_unplaced (n : Nat) : m.unplaced.run n = (m.run n).unplaced := by
  induction n generalizing m with
  | zero => rfl
  | succ n ih =>
      have hempty : m.unplaced.stack.isEmpty = m.stack.isEmpty := List.isEmpty_map
      rw [run, run, hempty, step_unplaced, ih]
      split <;> rfl

end Does

end Machine

end Parse

end CommandShell
