import CommandShell.Proofs.Exactness
import CommandShell.Proofs.Items
import CommandShell.Proofs.Positions

/-! # Calls with `;` between them

Texts of calls can be read one after another: a reading of calls with `;` between them gives the
trees that the calls have on their own, wherever in the text they stand. -/

namespace CommandShell.Parse

open Grammar Spelling CommandShell.Tree

/-- A `;` and a call behind it. -/
structure Follower where
  mark : Token
  call : Span
  semicolon : mark.kind = .semicolon
  isCall : CallSpan call

def Follower.tokens (d : Follower) : List Token := d.mark :: d.call.1

/-- The tree of a call on its own. -/
def Follower.tree (d : Follower) : Tree := .node .call d.call.2

def joinedTokens (c : Span) (ds : List Follower) : List Token := c.1 ++ ds.flatMap Follower.tokens

/-- The trees that a command has when calls are added to it one by one. -/
def joinedKids (kids : List Tree) : List Follower → List Tree
  | [] => kids
  | d :: ds => joinedKids [.node .command kids, .leaf d.mark, .node .command [d.tree]] ds

section Reading

variable {level : Nat} {rest : List Token} {kids : List Tree}

/-- Only the last part matters for what can follow. -/
theorem Ends.right {marks p q ks : List Kind} (h : Ends marks (p ++ q) ks) (hq : q ≠ []) :
    Ends marks q ks := by
  intro k hk
  rw [← List.getLast?_append_of_ne_nil p hq]
  exact h k hk

theorem Ends.append {marks q ks : List Kind} (h : Ends marks q ks) (hq : q ≠ []) (p : List Kind) :
    Ends marks (p ++ q) ks := by
  intro k hk
  rw [List.getLast?_append_of_ne_nil p hq]
  exact h k hk

theorem joinedTokens_ne_nil {c : Span} (h : CallSpan c) (ds : List Follower) :
    kindsOf (joinedTokens c ds) ≠ [] := by
  rw [joinedTokens, kindsOf_append]
  exact List.append_ne_nil_of_left_ne_nil (Call.ne_nil h.spelled) _

theorem builds_item {c : Span} (hc : CallSpan c)
    (hend : Ends [.semicolon] (kindsOf c.1) (kindsOf rest)) :
    Builds .command level (body .command) c.1 rest [.node .call c.2] [.loop .one another] := by
  have hway : ∀ mayEnd, choose .callOrPipe mayEnd commands (kindsOf (c.1 ++ rest)) = .way 1 := by
    intro mayEnd
    rw [kindsOf_append]
    exact choose_call hc.spelled hend mayEnd
  have hstops := stops_of_ends hc.spelled (hend.mono (by decide))
  exact (turns_choice rfl hway rfl).builds (builds_rule (hc.builds hstops))

/-- After a `;` just one call is read. -/
theorem builds_follower {c : Span} (hc : CallSpan c)
    (hend : Ends [.semicolon] (kindsOf c.1) (kindsOf rest)) :
    Builds .command (commandLimit + 1) (body .command) c.1 rest [.node .call c.2] [] := by
  have hexit : Builds .command (commandLimit + 1) [.loop .one another] [] rest [] [] :=
    (turns_exit (Or.inl rfl) rfl (Or.inr rfl)).builds .refl
  have hgo := (builds_item hc hend).trans hexit
  rwa [List.append_nil] at hgo

theorem ends_followers {c : Span} {ds : List Follower}
    (hend : Ends [] (kindsOf (joinedTokens c ds)) (kindsOf rest)) :
    Ends [.semicolon] (kindsOf c.1) (kindsOf (ds.flatMap Follower.tokens ++ rest)) := by
  cases ds with
  | nil =>
      rw [joinedTokens, List.flatMap_nil, List.append_nil] at hend
      exact hend.mono (by decide)
  | cons d ds => exact ends_mark (by simp [d.semicolon]) _ _

theorem Ends.follower {c : Span} {d : Follower} {ds : List Follower} {ks : List Kind}
    (hend : Ends [] (kindsOf (joinedTokens c (d :: ds))) ks) :
    Ends [] (kindsOf (joinedTokens d.call ds)) ks := by
  have hsplit : joinedTokens c (d :: ds) = (c.1 ++ [d.mark]) ++ joinedTokens d.call ds := by
    simp [joinedTokens, Follower.tokens]
  rw [hsplit, kindsOf_append] at hend
  exact hend.right (joinedTokens_ne_nil d.isCall ds)

theorem goes_followers {x : Item} {c : Span} {ds : List Follower} (hx : IsLoop x .one another)
    (hend : Ends [] (kindsOf (joinedTokens c ds)) (kindsOf rest)) (kids : List Tree) :
    Goes .command 0 [x] kids (ds.flatMap Follower.tokens ++ rest) [] (joinedKids kids ds) rest := by
  induction ds generalizing x c kids with
  | nil =>
      have hne : kindAt (kindsOf rest) 0 ≠ .semicolon := hend.kindAt_ne (by decide) (by decide)
      have hexit : enters .one 0 another (kindsOf rest) = false :=
        enters_of_notMem fun h => hne (List.mem_singleton.mp h)
      exact (turns_exit hx hexit (Or.inr rfl)).goes kids
  | cons d ds ih =>
      have htokens : (d :: ds).flatMap Follower.tokens ++ rest =
          d.mark :: (d.call.1 ++ (ds.flatMap Follower.tokens ++ rest)) := by
        simp [Follower.tokens]
      have hmark : d.mark.kind ∈ [Kind.semicolon] := by simp [d.semicolon]
      have hround : enters .one 0 another
          (kindsOf (d.mark :: (d.call.1 ++ (ds.flatMap Follower.tokens ++ rest)))) = true :=
        enters_of_mem rfl hmark
      have hcall := builds_follower d.isCall (ends_followers hend.follower)
      rw [htokens]
      refine ((turns_round hx hround).goes kids).trans (goes_fold.trans ?_)
      refine (goes_token rfl hmark _ _).trans ((goes_rule (hcall []) _).trans ?_)
      exact ih (Or.inr rfl) hend.follower _

/-- Calls with `;` between them are read to their end. -/
theorem goes_calls {c : Span} {ds : List Follower} (hc : CallSpan c)
    (hend : Ends [] (kindsOf (joinedTokens c ds)) (kindsOf rest)) :
    Goes .command 0 (body .command) [] (joinedTokens c ds ++ rest) []
      (joinedKids [.node .call c.2] ds) rest := by
  have hgo := (builds_item hc (ends_followers hend) []).trans
    (goes_followers (Or.inl rfl) hend ([] ++ [.node .call c.2]))
  rwa [← List.append_assoc] at hgo

end Reading

/-- The calls of the tree are the trees of the calls. -/
theorem outermostAll_joinedKids (kids : List Tree) (ds : List Follower) :
    outermostAll [.pipe, .call] (joinedKids kids ds) =
      outermostAll [.pipe, .call] kids ++ ds.map Follower.tree := by
  induction ds generalizing kids with
  | nil => simp [joinedKids]
  | cons d ds ih => simp [joinedKids, ih, outermost_node, Follower.tree]

theorem items_joined (c : Span) (ds : List Follower) :
    items (.node .command (joinedKids [.node .call c.2] ds)) =
      .node .call c.2 :: ds.map Follower.tree := by
  rw [items, outermost_node, if_neg (by decide), outermostAll_joinedKids]
  simp [outermost_node]

/-! ### Whole texts -/

/-- Tokens whose places have been forgotten are read to a tree that forgets them too. -/
theorem read_of_goes {text : Text} {kids : List Tree} {rest : List Token}
    (h : Goes .command 0 (body .command) [] ((Token.scan text).map Token.unplaced) [] kids rest) :
    (read .command text).complaints = [] ∧
      (read .command text).tree.unplaced = .node .command kids ∧
      (read .command text).next + rest.length = (Token.scan text).length := by
  have hstart : Stands [] [] ⟨.command, 0, body .command, []⟩
      ((Token.scan text).map Token.unplaced) (Machine.start .command text).unplaced :=
    ⟨rfl, rfl, rfl, rfl, rfl⟩
  obtain ⟨n, hn⟩ := h _ _ _ hstart
  have hlast : (Machine.start .command text).unplaced.run (n + 1) =
      ((Machine.start .command text).unplaced.run n).leave := by
    rw [Machine.run_add, hn.place.run_one, Machine.step]
    simp only [hn.stack]
  rw [Machine.leave_of_last hn.stack, Machine.run_unplaced] at hlast
  have hstack : ((Machine.start .command text).run (n + 1)).stack = [] :=
    List.map_eq_nil_iff.mp (congrArg Machine.stack hlast)
  rw [← ended_eq_run hstack] at hlast
  have hcomplaints : (ended text).complaints.map Complaint.unplaced = [] :=
    (congrArg Machine.complaints hlast).trans hn.complaints
  have hrest : (ended text).rest.map Token.unplaced = rest :=
    (congrArg Machine.rest hlast).trans hn.rest
  have hresult : (ended text).result.map Tree.unplaced = some (.node .command kids) :=
    congrArg Machine.result hlast
  obtain ⟨t, ht, hunplaced⟩ := Option.map_eq_some_iff.mp hresult
  have htree : (read .command text).tree = t := by
    rw [ended] at ht
    simp [read, ht]
  refine ⟨complaints_ended.mp (List.map_eq_nil_iff.mp hcomplaints), ?_, ?_⟩
  · rw [htree, hunplaced]
  · rw [← hrest, List.length_map]
    exact next_add_rest text

theorem kindsOf_unplaced (ts : List Token) : kindsOf (ts.map Token.unplaced) = kindsOf ts := by
  rw [kindsOf, List.map_map]
  rfl

theorem exists_span {x : Tree} (h : x.IsCall) :
    ∃ c, CallSpan c ∧ c.1 = x.tokens.map Token.unplaced := by
  have hcall : Call (kindsOf (x.tokens.map Token.unplaced)) := by
    have hkinds := mem_of_isDerivation (h.fits.neat x (by simp)).derivation
    rw [h.root_eq] at hkinds
    rwa [kindsOf_unplaced]
  obtain ⟨new, hnew⟩ := exists_callSpan hcall
  exact ⟨_, hnew, rfl⟩

theorem exists_call {t : Tree} (h : t.IsItem) (hc : ∀ x ∈ t.items, x.rule? = some .call) :
    ∃ x, t = .node .command [x] ∧ x.IsCall := by
  obtain ⟨x, rfl, hx, hcase⟩ := h.exists_items
  exact ⟨x, rfl, isCall_of_rule? hcase (hc x (by simp [hx]))⟩

/-- The tokens of a command without pipes are those of its calls. -/
theorem exists_followers {t : Tree} (h : t.IsCommand)
    (hc : ∀ x ∈ t.items, x.rule? = some .call) :
    ∃ c ds, CallSpan c ∧ t.tokens.map Token.unplaced = joinedTokens c ds := by
  induction h with
  | item h =>
      obtain ⟨x, rfl, hx⟩ := exists_call h hc
      obtain ⟨c, hspan, htokens⟩ := exists_span hx
      exact ⟨c, [], hspan, by simp [joinedTokens, htokens]⟩
  | join _ hs hb ih =>
      rw [items_join hs] at hc
      obtain ⟨c, ds, hspan, htokens⟩ := ih fun x hx => hc x (List.mem_append_left _ hx)
      obtain ⟨x, rfl, hx⟩ := exists_call hb fun x hx => hc x (List.mem_append_right _ hx)
      obtain ⟨d, hd, hdtokens⟩ := exists_span hx
      obtain ⟨s, rfl, hk⟩ := hs.exists_leaf
      refine ⟨c, ds ++ [⟨s.unplaced, d, List.mem_singleton.mp hk, hd⟩], hspan, ?_⟩
      simp [htokens, hdtokens, joinedTokens, Follower.tokens]

/-- A text that is read without a complaint and without a pipe, as its calls and what is left. -/
structure Consists (text : Text) (c : Span) (ds : List Follower) (rest : List Token) : Prop where
  isCall : CallSpan c
  tokens : (Token.scan text).map Token.unplaced = joinedTokens c ds ++ rest
  ends : Ends [] (kindsOf (joinedTokens c ds)) (kindsOf rest)

theorem exists_consists {text : Text} (h : (read .command text).complaints = [])
    (hc : ∀ x ∈ (read .command text).tree.items, x.rule? = some .call) :
    ∃ c ds rest, Consists text c ds rest := by
  obtain ⟨hcommand, htokens⟩ := isCommand_of_read h
  obtain ⟨c, ds, hspan, hjoined⟩ := exists_followers hcommand hc
  have hends := ends_of_read h
  rw [htokens, List.map_take] at hjoined
  refine ⟨c, ds, ((Token.scan text).map Token.unplaced).drop (read .command text).next, hspan, ?_,
    ?_⟩
  · rw [← hjoined, List.take_append_drop]
  · rw [← hjoined, kindsOf, List.map_take, kindsOf, List.map_drop, ← kindsOf, kindsOf_unplaced]
    exact hends

namespace Consists

variable {text : Text} {c : Span} {ds : List Follower} {rest : List Token}

theorem read_eq (h : Consists text c ds rest) :
    (read .command text).complaints = [] ∧
      (read .command text).tree.unplaced = .node .command (joinedKids [.node .call c.2] ds) ∧
      (read .command text).next + rest.length = (Token.scan text).length := by
  apply read_of_goes
  rw [h.tokens]
  exact goes_calls h.isCall h.ends

theorem items_unplaced (h : Consists text c ds rest) :
    (read .command text).tree.unplaced.items = .node .call c.2 :: ds.map Follower.tree := by
  rw [h.read_eq.2.1, items_joined]

/-- A `;` between two texts. -/
theorem unplaced_join (text more : Text) :
    (Token.scan (text ++ ';' :: more)).map Token.unplaced =
      (Token.scan text).map Token.unplaced ++
        Token.ofRun (.semicolon, [';']) :: (Token.scan more).map Token.unplaced := by
  have hmark : (Kind.ofChar ';').isRun = false := rfl
  simp only [Token.map_unplaced_scan, Token.runs_append_mark hmark, List.map_append, List.map_cons]
  rfl

/-- What is read to its end can be followed by `;` and more. -/
theorem join {more : Text} {d : Span} {es : List Follower} (h : Consists text c ds [])
    (h' : Consists more d es rest) :
    Consists (text ++ ';' :: more) c
      (ds ++ ⟨Token.ofRun (.semicolon, [';']), d, rfl, h'.isCall⟩ :: es) rest := by
  have hjoined : joinedTokens c
      (ds ++ ⟨Token.ofRun (.semicolon, [';']), d, rfl, h'.isCall⟩ :: es) =
        joinedTokens c ds ++ [Token.ofRun (.semicolon, [';'])] ++ joinedTokens d es := by
    simp [joinedTokens, Follower.tokens]
  refine ⟨h.isCall, ?_, ?_⟩
  · rw [unplaced_join, h.tokens, h'.tokens, hjoined]
    simp
  · rw [hjoined, kindsOf_append]
    exact h'.ends.append (joinedTokens_ne_nil h'.isCall es) _

/-- What is not read to its end is not read further with more behind it. -/
theorem stopped {t : Token} (h : Consists text c ds (t :: rest)) (more : Text) :
    ∃ rest', Consists (text ++ ';' :: more) c ds (t :: rest') := by
  refine ⟨rest ++ Token.ofRun (.semicolon, [';']) :: (Token.scan more).map Token.unplaced,
    h.isCall, ?_, h.ends⟩
  rw [unplaced_join, h.tokens, List.append_assoc, List.cons_append]

end Consists

end CommandShell.Parse
