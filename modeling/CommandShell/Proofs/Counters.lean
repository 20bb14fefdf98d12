import CommandShell.Proofs.BackQuotes
import CommandShell.Proofs.MalformedLines

/-! # The counters of a draft

While a line without pipes is drafted, words are added at the last place of the tree, and there are
never more rows than are expected. This holds at any time of the walk over the tree of the line,
mended or not, and also where the walk ends with a fault. So words go to the row that was opened
last, and a word has no place to go only while there is no row. -/

namespace CommandShell

open Drafting

/-! ### The stations of a walk -/

/-- A station of the walk over a tree: something is done there, or a sequence ends. -/
inductive Station where
  | deed (d : Deed)
  | join
deriving DecidableEq, Repr

namespace Tree

mutual
/-- The stations of the walk over a tree without pipes, one after another. -/
def stations : Tree → List Station
  | .leaf _ => []
  | .skipped _ => []
  | .missing _ => []
  | .node r kids =>
      match r with
      | .command =>
          stationsAll kids ++ if kids.any (fun k => k.rule? = some .command) then [.join] else []
      | _ => (deeds (.node r kids)).map .deed

def stationsAll : List Tree → List Station
  | [] => []
  | t :: ts => stations t ++ stationsAll ts
end

section Equations

variable (kids : List Tree)

theorem stations_command : stations (.node .command kids) =
    stationsAll kids ++ if kids.any (fun k => k.rule? = some .command) then [.join] else [] := rfl

theorem stations_call : stations (.node .call kids) = (deeds (.node .call kids)).map .deed := rfl

@[simp] theorem stations_leaf (t : Token) : stations (.leaf t) = [] := rfl

@[simp] theorem stationsAll_nil : stationsAll [] = [] := rfl

@[simp] theorem stationsAll_cons (t : Tree) (ts : List Tree) :
    stationsAll (t :: ts) = stations t ++ stationsAll ts := rfl

end Equations

theorem stations_of_rule? {t : Tree} (h : t.rule? = none) : t.stations = [] := by
  cases t with
  | node r kids => cases h
  | leaf | skipped | missing => rfl

theorem stationsAll_lost {lost : List Tree} (h : ∀ k ∈ lost, k.rule? = none) (more : List Tree) :
    stationsAll (lost ++ more) = stationsAll more := by
  induction lost with
  | nil => rfl
  | cons k ks ih =>
      rw [List.cons_append, stationsAll_cons, stations_of_rule? (h k (by simp)), List.nil_append,
        ih fun x hx => h x (by simp [hx])]

end Tree

namespace Drafting

variable (run : Text → List Value → World → Running)

def pass : Station → Drafting Unit
  | .deed d => carryOut run d
  | .join => update (·.closeSequence)

def passAll : List Station → Drafting Unit
  | [] => pure ()
  | s :: ss => do
      pass run s
      passAll ss

theorem passAll_append (xs ys : List Station) :
    passAll run (xs ++ ys) = (do passAll run xs; passAll run ys) := by
  induction xs with
  | nil => simp [passAll]
  | cons s xs ih => simp [passAll, ih]

theorem passAll_singleton (s : Station) : passAll run [s] = pass run s := by
  simp [passAll]

theorem passAll_deeds (ds : List Deed) : passAll run (ds.map .deed) = carryOutAll run ds := by
  induction ds with
  | nil => rfl
  | cons d ds ih => rw [List.map_cons, passAll, ih, pass, carryOutAll]

end Drafting

/-! ### Walking is passing the stations -/

namespace Tree

variable {run : Text → List Value → World → Running} {ts : List Token} {t x : Tree}

/-- Without pipes an item is a call. -/
theorem Opened.rule?_eq (h : Opened ts x) (hp : x.outermost [.pipe] = []) :
    x.rule? = some .call := by
  obtain ⟨c, hc, -, hled⟩ := h
  cases hled with
  | call => exact hc.rule?_eq
  | pipe => cases hp

/-- At the first station of a call the row is expected that it may open. -/
theorem IsCall.exists_stations (h : IsCall x) (hs : Scanned x) :
    walk run x = passAll run x.stations ∧ ∃ rest, x.stations = .deed (.note .expected) :: rest := by
  have hwalk : walk run x = carryOutAll run x.deeds := h.walk_deeds hs
  obtain ⟨kids, rfl, -⟩ := h.kids_cases
  refine ⟨?_, _, rfl⟩
  rw [hwalk, stations_call, passAll_deeds]

section Segments

variable {lost : List Tree}

theorem stations_segment (hk : ∀ k ∈ lost, k.rule? = none) (hr : x.rule? = some .call) :
    stations (.node .command (lost ++ [x])) = x.stations := by
  rw [stations_command, stationsAll_lost hk, any_lost hk]
  simp [hr]

theorem stations_lost (hk : ∀ k ∈ lost, k.rule? = none) : stations (.node .command lost) = [] := by
  have hall := stationsAll_lost hk []
  rw [List.append_nil] at hall
  rw [stations_command, hall, any_rule_lost hk]
  rfl

/-- What is read at the start of a line or after a `;` is one call, after what was passed over. -/
theorem Opened.exists_stations (hl : Token.Lexed ts) (h : Opened ts x)
    (hk : ∀ k ∈ lost, k.rule? = none)
    (hp : outermost [.pipe] (.node .command (lost ++ [x])) = []) :
    walk run (.node .command (lost ++ [x])) =
        passAll run (stations (.node .command (lost ++ [x]))) ∧
      ∃ rest, stations (.node .command (lost ++ [x])) = .deed (.note .expected) :: rest := by
  have hx : x.outermost [.pipe] = [] := by
    rw [outermost_segment hk (by decide), outermostAll_cons] at hp
    exact (List.append_eq_nil_iff.mp hp).1
  have hr := h.rule?_eq hx
  obtain ⟨hcall, htokens⟩ := h.isCall hr
  rw [walk_segment_call hk hr, stations_segment hk hr]
  exact hcall.exists_stations (scanned_of_stretch hl htokens)

theorem Segment.walk_stations (hl : Token.Lexed ts) (h : Segment ts t)
    (hp : t.outermost [.pipe] = []) : walk run t = passAll run t.stations := by
  cases h with
  | lost hk => rw [walk_lost hk, stations_lost hk, passAll]
  | item hk hx => exact (hx.exists_stations hl hk hp).1

theorem Salvaged.exists_stations (hl : Token.Lexed ts) (h : Salvaged ts t)
    (hp : t.outermost [.pipe] = []) :
    walk run t = passAll run t.stations ∧ ∃ rest, t.stations = .deed (.note .expected) :: rest := by
  induction h with
  | item hk hx => exact hx.exists_stations hl hk hp
  | @join a s b ha hs hb ih =>
      obtain ⟨hpa, hpb⟩ : a.outermost [.pipe] = [] ∧ b.outermost [.pipe] = [] := by
        obtain ⟨hk⟩ := hs
        simpa [outermost_node] using hp
      obtain ⟨hwalk, rest, hrest⟩ := ih hpa
      have hstations : stations (.node .command [a, s, b]) =
          a.stations ++ (b.stations ++ [.join]) := by
        obtain ⟨hk⟩ := hs
        simp [stations_command, hb.rule?_eq]
      refine ⟨?_, rest ++ (b.stations ++ [.join]), by rw [hstations, hrest, List.cons_append]⟩
      rw [walk_joined hs hb.rule?_eq, hwalk, hb.walk_stations hl hpb, hstations, passAll_append,
        passAll_append, passAll_singleton]
      rfl

end Segments

end Tree

/-- The walk over the tree of a line without pipes passes its stations. At the first of them a row is
expected. -/
theorem walk_treeOf {line : Text} (h : (treeOf line).outermost [.pipe] = [])
    (run : Text → List Value → World → Running) :
    walk run (treeOf line) = passAll run (treeOf line).stations ∧
      ((treeOf line).stations = [] ∨
        ∃ rest, (treeOf line).stations = .deed (.note .expected) :: rest) := by
  obtain ⟨hsaved, hlost⟩ := Parse.read_salvages line
  rw [← treeOf] at hsaved hlost
  by_cases hcall : Parse.StartsWithCall (Parse.kindsOf (Parse.opening (Token.scan line)))
  · obtain ⟨hwalk, hfirst⟩ := (hsaved hcall).exists_stations (Token.lexed_scan line) h
    exact ⟨hwalk, Or.inr hfirst⟩
  · obtain ⟨kids, htree, hk⟩ := hlost hcall
    rw [htree, Tree.stations_lost hk]
    exact ⟨Tree.walk_lost hk, Or.inl rfl⟩

/-! ### Counters -/

namespace Draft

/-- Words are added at the last place of the tree, where all rows are in the order in which they
were opened. -/
structure AtLast (d : Draft) : Prop where
  position : d.position = (d.tree.length : Int) - 1
  tree : d.tree = List.range d.rows.length

/-- The counters agree: besides there are not more rows than are expected. -/
structure Agrees (d : Draft) : Prop extends AtLast d where
  sequences : d.tree.length ≤ d.sequences

/-- The draft with a word more in the row that was opened last. -/
def extended (d : Draft) (t : Text) : Draft := { d with rows := addToLast t d.rows }

/-- The draft with a first row if it had none. -/
def withRow (d : Draft) : Draft := if d.tree.isEmpty then d.openRow [] else d

variable {d : Draft}

namespace AtLast

theorem length_tree (h : d.AtLast) : d.tree.length = d.rows.length := by
  rw [h.tree, List.length_range]

theorem tree_eq_nil_iff (h : d.AtLast) : d.tree = [] ↔ d.rows = [] := by
  rw [← List.length_eq_zero_iff, h.length_tree, List.length_eq_zero_iff]

/-- The row to which words are added is the one opened last. -/
theorem currentRow?_eq (h : d.AtLast) (hr : d.rows ≠ []) :
    d.currentRow? = some (d.rows.length - 1) := by
  have hposition := h.position
  have hlength := h.length_tree
  have hpos := List.length_pos_of_ne_nil hr
  have hplace : d.position.toNat = d.rows.length - 1 := by omega
  rw [currentRow?, if_pos (by omega), hplace, h.tree, List.getElem?_range (by omega)]

theorem currentRow?_eq_none_iff (h : d.AtLast) : d.currentRow? = none ↔ d.rows = [] := by
  constructor
  · intro hnone
    by_contra hr
    rw [h.currentRow?_eq hr] at hnone
    cases hnone
  · intro hr
    have hlength : d.tree.length = 0 := by rw [h.length_tree, hr, List.length_nil]
    have hposition := h.position
    rw [currentRow?, if_neg (by omega), if_neg (by omega)]

theorem addWord?_eq (h : d.AtLast) (hr : d.rows ≠ []) (t : Text) :
    d.addWord? t = some (d.extended t) := by
  rw [addWord?, h.currentRow?_eq hr, Option.map_some, modify_last, extended]

theorem extended (h : d.AtLast) (t : Text) : (d.extended t).AtLast :=
  ⟨h.position, by rw [Draft.extended, length_addToLast, ← h.tree]⟩

theorem openRow (h : d.AtLast) (words : List Text) : (d.openRow words).AtLast := by
  have hposition := h.position
  have hlength := length_openRow d words
  constructor
  · rw [hlength]
    change d.position + 1 = _
    omega
  · change d.tree ++ [d.rows.length] = List.range (d.rows ++ [words]).length
    rw [h.tree, List.length_append, List.length_singleton, List.range_succ]

theorem withRow (h : d.AtLast) : d.withRow.AtLast ∧ d.withRow.rows ≠ [] := by
  unfold Draft.withRow
  split
  · exact ⟨h.openRow [], by simp [Draft.openRow]⟩
  · next hne =>
      refine ⟨h, fun hr => hne ?_⟩
      rw [h.tree_eq_nil_iff.mpr hr]
      rfl

end AtLast

/-- The counters agree after a row has been expected. -/
structure Expecting (d : Draft) : Prop extends Agrees d where
  expected : 0 < d.sequences

theorem agrees_empty : Draft.empty.Agrees := ⟨⟨rfl, rfl⟩, Nat.le_refl 0⟩

theorem Agrees.expectRow (h : d.Agrees) : d.expectRow.Expecting :=
  ⟨⟨⟨h.position, h.tree⟩, Nat.le_succ_of_le h.sequences⟩, Nat.succ_pos d.sequences⟩

namespace Expecting

theorem openRow (h : d.Expecting) (hlt : d.tree.length < d.sequences) (words : List Text) :
    (d.openRow words).Expecting := by
  refine ⟨⟨h.toAtLast.openRow words, ?_⟩, h.expected⟩
  rw [length_openRow]
  exact hlt

theorem extended (h : d.Expecting) (t : Text) : (d.extended t).Expecting :=
  ⟨⟨h.toAtLast.extended t, h.sequences⟩, h.expected⟩

/-- The first row is among those expected. -/
theorem withRow (h : d.Expecting) : d.withRow.Expecting := by
  unfold Draft.withRow
  split
  · next hempty =>
      refine h.openRow ?_ []
      rw [List.isEmpty_iff.mp hempty]
      exact h.expected
  · exact h

theorem closeSequence (h : d.Expecting) : d.closeSequence.Expecting := by
  obtain ⟨queue, hclosed⟩ := d.exists_closeSequence
  rw [hclosed]
  exact ⟨⟨⟨h.position, h.tree⟩, h.sequences⟩, h.expected⟩

end Expecting

end Draft

/-! ### Station by station -/

namespace Drafting

variable (run : Text → List Value → World → Running) {d : Draft}

/-- The draft that a step leaves, whether it fails or not. -/
def left : EStateM.Result Fault DraftState Unit → Draft
  | .ok _ c => c.draft
  | .error _ c => c.draft

theorem addWord_eq (h : d.AtLast) (t : Text) (w : World) :
    (d.rows = [] → addWord t ⟨d, w⟩ = .error .listIndex ⟨d, w⟩) ∧
      (d.rows ≠ [] → addWord t ⟨d, w⟩ = .ok () ⟨d.extended t, w⟩) := by
  rw [addWord, get_bind]
  constructor
  · intro hr
    rw [Draft.addWord?, h.currentRow?_eq_none_iff.mpr hr]
    rfl
  · intro hr
    rw [h.addWord?_eq hr]
    rfl

/-- For a step for which a first row is made and a row has to be there, it is there. -/
theorem inRow_eq (h : d.AtLast) (x : Drafting Unit) (w : World) :
    (do
      if (← get).draft.tree.isEmpty then update (·.openRow [])
      if (← get).draft.currentRow?.isNone then throw .listIndex
      x : Drafting Unit) ⟨d, w⟩ = x ⟨d.withRow, w⟩ := by
  obtain ⟨hrow, hrows⟩ := h.withRow
  have hsome : d.withRow.currentRow?.isNone = false := by
    rw [hrow.currentRow?_eq hrows]
    rfl
  have hthere : (do
      if (← get).draft.currentRow?.isNone then throw .listIndex
      x : Drafting Unit) ⟨d.withRow, w⟩ = x ⟨d.withRow, w⟩ := by
    rw [get_bind]
    simp only [hsome, Bool.false_eq_true, if_false]
  rw [← hthere, get_bind]
  cases hempty : d.tree.isEmpty with
  | true =>
      have hopened : d.withRow = d.openRow [] := if_pos hempty
      rw [hopened]
      rfl
  | false =>
      have hsame : d.withRow = d := if_neg (by simp [hempty])
      rw [hsame]
      rfl

/-- What the outcome of a substitution makes of a draft. A word goes to the row opened last, which may
be a first one opened for it; a fault is that of the substitution. -/
inductive Takes (d : Draft) :
    EStateM.Result Fault World Text → EStateM.Result Fault DraftState Unit → Prop
  | word (t : Text) (w : World) : Takes d (.ok t w) (.ok () ⟨d.withRow.extended t, w⟩)
  | fault {d' : Draft} (hd : d' = d ∨ d' = d.withRow) (e : Fault) (w : World) :
      Takes d (.error e w) (.error e ⟨d', w⟩)

/-- There is a row for what stands between back quotes, whatever it comes to. -/
theorem takes_substitute (h : d.AtLast) (t : Text) (w : World) :
    Takes d (substitution run t w) (substitute run t ⟨d, w⟩) := by
  rw [substitute, substitution]
  cases backQuoted? t with
  | none => exact .fault (Or.inl rfl) _ _
  | some parts =>
      obtain ⟨before, line, after⟩ := parts
      generalize hr : run line [.text before] w = r
      obtain ⟨out, v, fault⟩ := r
      simp only [get_bind, modify_bind, read_bind, write_bind, hr]
      cases fault with
      | some e => exact .fault (Or.inl rfl) e v
      | none =>
          cases joined 0 (trimLast out ++ [.text after]) with
          | error e =>
              -- The row has been opened by now, and stays.
              exact (inRow_eq h (throw e) v).substr (p := Takes d (.error e v))
                (.fault (Or.inr rfl) e v)
          | ok word =>
              obtain ⟨hrow, hrows⟩ := h.withRow
              have hadds := (inRow_eq h (addWord word) v).trans ((addWord_eq hrow word v).2 hrows)
              exact hadds.substr (p := Takes d (.ok word v)) (.word word v)

theorem Takes.expecting (hd : d.Expecting) {r : EStateM.Result Fault World Text}
    {r' : EStateM.Result Fault DraftState Unit} (h : Takes d r r') : (left r').Expecting := by
  cases h with
  | word t w => exact hd.withRow.extended t
  | fault hd' e w =>
      rcases hd' with rfl | rfl
      · exact hd
      · exact hd.withRow

/-- Whatever is done at a station, the counters go on to agree, also if it fails. -/
theorem expecting_pass (h : d.Expecting) (s : Station) (w : World) :
    (left (pass run s ⟨d, w⟩)).Expecting := by
  cases s with
  | join => exact h.closeSequence
  | deed deed =>
      cases deed with
      | substitute t => exact (takes_substitute run h.toAtLast t w).expecting h
      | note n =>
          cases n with
          | expected => exact h.toAgrees.expectRow
          | redirection sign =>
              exact h.toAgrees.expectRow.openRow (Nat.lt_succ_of_le h.sequences) [sign]
          | argument t =>
              have hnote : pass run (.deed (.note (.argument t))) ⟨d, w⟩ =
                  Draft.outcome w (d.note (.argument t)) := performNote_eq (.argument t) d w
              rw [hnote, Draft.note]
              change Draft.Expecting (if _ then _ else _)
              split
              · next hname =>
                  have hne : d.tree.length ≠ d.sequences :=
                    of_decide_eq_true (Bool.and_eq_true_iff.mp hname).2
                  exact h.openRow (Nat.lt_of_le_of_ne h.sequences hne) []
              · exact h
          | word t =>
              obtain ⟨hnone, hsome⟩ := addWord_eq h.toAtLast t w
              rw [pass, carryOut, performNote]
              by_cases hr : d.rows = []
              · rw [hnone hr]
                exact h
              · rw [hsome hr]
                exact h.extended t

theorem expecting_passAll (h : d.Expecting) (ss : List Station) (w : World) :
    (left (passAll run ss ⟨d, w⟩)).Expecting := by
  induction ss generalizing d w with
  | nil => exact h
  | cons s ss ih =>
      have hstep := expecting_pass run h s w
      simp only [passAll, bind, EStateM.bind]
      cases hs : pass run s ⟨d, w⟩ with
      | error e c =>
          rw [hs] at hstep
          exact hstep
      | ok u c =>
          rw [hs] at hstep
          exact ih hstep c.world

/-- A first part of the walk, however far it comes. -/
theorem agrees_passAll_empty {ss done : List Station}
    (hfirst : ss = [] ∨ ∃ rest, ss = .deed (.note .expected) :: rest) (hdone : done <+: ss)
    (w : World) : (left (passAll run done ⟨Draft.empty, w⟩)).Agrees := by
  cases done with
  | nil => exact Draft.agrees_empty
  | cons s done =>
      obtain ⟨more, hss⟩ := hdone
      rcases hfirst with rfl | ⟨rest, rfl⟩
      · cases hss
      · obtain ⟨rfl, -⟩ := List.cons.inj hss
        exact (expecting_passAll run Draft.agrees_empty.expectRow done w).toAgrees

end Drafting

theorem draft_draftWith (run : Text → List Value → World → Running) (line : Text) (w : World) :
    (draftWith run line w).draft =
      left (walk run (treeOf line) ⟨Draft.empty, w.warn (reportOf line)⟩) := by
  rw [draftWith, treeOf, reportOf]
  cases walk run (Parse.read .command line).tree ⟨Draft.empty, _⟩ <;> rfl

/-- A line without pipes is drafted with counters that agree at the end, however it ends, and after
any first part of the walk over its tree. So there is a row to add a word to unless none has been
opened, a word is added to the row that was opened last, and what stands between back quotes fails
for its own reasons only. -/
theorem counters_agree_without_pipes (run : Text → List Value → World → Running) {line : Text}
    (h : (treeOf line).outermost [.pipe] = []) (w : World) :
    (draftWith run line w).draft.Agrees ∧
      walk run (treeOf line) = passAll run (treeOf line).stations ∧
      ∀ done c, done <+: (treeOf line).stations →
        passAll run done ⟨Draft.empty, w.warn (reportOf line)⟩ = .ok () c →
          c.draft.Agrees ∧
          (c.draft.currentRow? = none ↔ c.draft.rows = []) ∧
          (∀ t, (c.draft.rows = [] → addWord t c = .error .listIndex c) ∧
            (c.draft.rows ≠ [] → addWord t c = .ok () ⟨c.draft.extended t, c.world⟩)) ∧
          ∀ t, Takes c.draft (substitution run t c.world) (substitute run t c) := by
  obtain ⟨hwalk, hfirst⟩ := walk_treeOf h run
  refine ⟨?_, hwalk, fun done c hdone hc => ?_⟩
  · rw [draft_draftWith, hwalk]
    exact agrees_passAll_empty run hfirst (List.prefix_refl _) _
  · have hagrees : c.draft.Agrees := by
      have hleft := agrees_passAll_empty run hfirst hdone (w.warn (reportOf line))
      rwa [hc] at hleft
    have hlast := hagrees.toAtLast
    exact ⟨hagrees, hlast.currentRow?_eq_none_iff, fun t => addWord_eq hlast t c.world,
      fun t => takes_substitute run hlast t c.world⟩

/-- A line that starts between back quotes and ends there with a fault. While no row has been opened
a word has no place to go; the `;` at the end is complained of. -/
theorem counters_agree_without_pipes_leading :
    let line := "`echo a` b; c `cat x`;".toList
    (treeOf line).outermost [.pipe] = [] ∧ reportOf line ≠ [] ∧
      (draftLine line World.bare).draft =
        ⟨[["a".toList, "b".toList, "c".toList]], [], [0], 0, 2, []⟩ ∧
      (draftLine line World.bare).draft.Agrees ∧
      ∃ c, passAll runPlain ((treeOf line).stations.take 2)
          ⟨Draft.empty, World.bare.warn (reportOf line)⟩ = .ok () c ∧
        ∀ t, addWord t c = .error .listIndex c := by
  intro line
  have hpipe : (treeOf line).outermost [.pipe] = [] := by decide +kernel
  obtain ⟨hagrees, -, hmoments⟩ := counters_agree_without_pipes runPlain hpipe World.bare
  have hstations : (treeOf line).stations.take 2 =
      [.deed (.note .expected), .deed (.note (.argument "`echo a`".toList))] := by decide +kernel
  have hpassed : passAll runPlain ((treeOf line).stations.take 2)
      ⟨Draft.empty, World.bare.warn (reportOf line)⟩ =
        .ok () ⟨Draft.empty.expectRow, World.bare.warn (reportOf line)⟩ := by
    rw [hstations]
    rfl
  obtain ⟨-, -, hword, -⟩ := hmoments _ _ (List.take_prefix 2 _) hpassed
  exact ⟨hpipe, by decide +kernel, by decide +kernel, hagrees, _, hpassed, fun t => (hword t).1 rfl⟩

end CommandShell
