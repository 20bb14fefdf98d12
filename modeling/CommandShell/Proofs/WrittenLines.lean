import CommandShell.Proofs.CallLines

/-! # Lines of arguments

A line that starts with a name and goes on with arguments and redirections, a blank before each of
them, is one call, also with redirections before the name. What is done for the line is what is done
for its parts one after another, whatever they are made of. -/

namespace CommandShell

open Parse Grammar Spelling CommandShell.Tree

namespace Token

/-- The tokens of a text, at no place in particular. -/
def ofText (t : Text) : List Token := (runs t).map ofRun

@[simp] theorem ofText_nil : ofText [] = [] := rfl

theorem ofText_append {a b : Text}
    (h : ∀ x ∈ a.getLast?, ∀ y ∈ b.head?, Apart (Kind.ofChar x) (Kind.ofChar y)) :
    ofText (a ++ b) = ofText a ++ ofText b := by
  rw [ofText, runs_append h, List.map_append]
  rfl

/-- Texts of which one ends and the other starts with different kinds are scanned one by one. -/
theorem ofText_append_of_ne {a b : Text}
    (h : ∀ x ∈ a.getLast?, ∀ y ∈ b.head?, Kind.ofChar x ≠ Kind.ofChar y) :
    ofText (a ++ b) = ofText a ++ ofText b :=
  ofText_append fun x hx y hy hapart => h x hx y hy hapart.1

theorem ofText_append_mark {c : Char} (hc : (Kind.ofChar c).isRun = false) (a b : Text) :
    ofText (a ++ c :: b) = ofText a ++ ofRun (Kind.ofChar c, [c]) :: ofText b := by
  rw [ofText, runs_append_mark hc, List.map_append]
  rfl

theorem ofText_word {t : Text} (hne : t ≠ []) (h : ∀ c ∈ t, Kind.ofChar c = .word) :
    ofText t = [ofRun (.word, t)] := by
  rw [ofText, runs_of_kind rfl hne h]
  rfl

theorem texts_ofText (t : Text) : ((ofText t).map text).flatten = t := by
  rw [ofText, List.map_map]
  exact runs_flatten t

/-- What holds of the kinds of all characters holds of the kinds of all tokens. -/
theorem kind_of_mem_ofText {t : Text} {p : Kind → Prop} (h : ∀ c ∈ t, p (Kind.ofChar c)) :
    ∀ u ∈ ofText t, p u.kind := by
  intro u hu
  obtain ⟨r, hr, rfl⟩ := List.mem_map.mp hu
  have hproper := properRun_runs t r hr
  obtain ⟨c, hc⟩ := List.exists_mem_of_ne_nil r.2 hproper.nonempty
  have hmem : c ∈ t := by
    rw [← runs_flatten t]
    exact List.mem_flatten.mpr ⟨r.2, List.mem_map_of_mem hr, hc⟩
  have hkind : Kind.ofChar c = (ofRun r).kind := hproper.chars c hc
  exact hkind ▸ h c hmem

end Token

/-! ### Arguments one after another -/

/-- A text that neither starts nor ends with a blank. -/
structure Solid (t : Text) : Prop where
  nonempty : t ≠ []
  first : ∀ c ∈ t.head?, Kind.ofChar c ≠ .blank
  last : ∀ c ∈ t.getLast?, Kind.ofChar c ≠ .blank

theorem Solid.append {a b : Text} (ha : Solid a) (hb : Solid b) : Solid (a ++ b) where
  nonempty := List.append_ne_nil_of_left_ne_nil ha.nonempty b
  first := by
    rw [List.head?_append_of_ne_nil _ ha.nonempty]
    exact ha.first
  last := by
    rw [List.getLast?_append_of_ne_nil _ hb.nonempty]
    exact hb.last

/-- A text that is read as one argument, and what is done for its parts. -/
structure ReadAs (written : Text) (deeds : List Deed) : Prop extends Solid written where
  spelled : Argument (kindsOf (Token.ofText written))
  reads : ∃ kids, Reads .argument (Token.ofText written) kids ∧ textAll kids = written ∧
    deedsAll kids = deeds

/-- Texts with a blank before each of them. -/
def following (ts : List Text) : Text := ts.flatMap fun t => ' ' :: t

def gapMark : Token := Token.ofRun (.blank, [' '])

/-- A blank between two texts is a token of its own, where no other blank stands beside it. -/
theorem ofText_gap {t u : Text} (ht : Solid t) (hu : Solid u) (rest : Text) :
    Token.ofText (t ++ ' ' :: (u ++ rest)) =
      Token.ofText t ++ gapMark :: Token.ofText (u ++ rest) := by
  have hleft : Token.ofText (t ++ ([' '] ++ (u ++ rest))) =
      Token.ofText t ++ Token.ofText ([' '] ++ (u ++ rest)) := by
    apply Token.ofText_append_of_ne
    intro a ha b hb
    obtain rfl := Option.some.inj hb
    exact ht.last a ha
  have hright : Token.ofText ([' '] ++ (u ++ rest)) = [gapMark] ++ Token.ofText (u ++ rest) := by
    apply Token.ofText_append_of_ne
    intro a ha b hb
    obtain rfl := Option.some.inj ha
    rw [List.head?_append_of_ne_nil _ hu.nonempty] at hb
    exact (hu.first b hb).symm
  exact hleft.trans (congrArg _ hright)

theorem ofText_line {t : Text} (ht : Solid t) {ts : List Text} (h : ∀ u ∈ ts, Solid u) :
    Token.ofText (t ++ following ts) =
      Token.ofText t ++ ts.flatMap fun u => gapMark :: Token.ofText u := by
  induction ts generalizing t with
  | nil => simp [following]
  | cons u us ih =>
      have hu := h u (by simp)
      have hline : t ++ following (u :: us) = t ++ ' ' :: (u ++ following us) := by
        simp [following]
      rw [hline, ofText_gap ht hu, ih hu fun v hv => h v (by simp [hv]), List.flatMap_cons]
      rfl

/-- Texts with a blank behind each of them. -/
def preceding (ts : List Text) : Text := ts.flatMap fun t => t ++ [' ']

theorem ofText_preceding {ts : List Text} (h : ∀ u ∈ ts, Solid u) {t : Text} (ht : Solid t)
    (rest : Text) :
    Token.ofText (preceding ts ++ (t ++ rest)) =
      (ts.flatMap fun u => Token.ofText u ++ [gapMark]) ++ Token.ofText (t ++ rest) := by
  induction ts with
  | nil => rfl
  | cons u us ih =>
      have hu := h u (by simp)
      have hus := ih fun v hv => h v (by simp [hv])
      have hline : preceding (u :: us) ++ (t ++ rest) =
          u ++ ' ' :: (preceding us ++ (t ++ rest)) := by simp [preceding]
      -- What follows the blank is another text of the list, or the one behind them all.
      have hgap : Token.ofText (u ++ ' ' :: (preceding us ++ (t ++ rest))) =
          Token.ofText u ++ gapMark :: Token.ofText (preceding us ++ (t ++ rest)) := by
        cases us with
        | nil => exact ofText_gap hu ht rest
        | cons v vs =>
            have hnext : preceding (v :: vs) ++ (t ++ rest) =
                v ++ ([' '] ++ (preceding vs ++ (t ++ rest))) := by simp [preceding]
            rw [hnext]
            exact ofText_gap hu (h v (by simp)) _
      rw [hline, hgap, hus]
      simp

/-- What is done for an argument. -/
def argumentDeeds (x : Text × List Deed) : List Deed := .note (.argument x.1) :: x.2

/-- A text that is read as a redirection, and what is done for it. -/
structure RedirectsAs (written : Text) (deeds : List Deed) : Prop extends Solid written where
  spelled : Redirection (kindsOf (Token.ofText written))
  reads : ∃ kids, Reads .redirection (Token.ofText written) kids ∧
    Tree.deeds (.node .redirection kids) = deeds

/-- A text that is read as an atom, and what is done for it. -/
structure AtomAs (written : Text) (deeds : List Deed) : Prop extends Solid written where
  spelled : Atom (kindsOf (Token.ofText written))
  reads : ∃ kids, Reads .atom (Token.ofText written) kids ∧ deedsAll kids = deeds

theorem ReadAs.atom {t : Text} {deeds : List Deed} (h : ReadAs t deeds) :
    AtomAs t (argumentDeeds (t, deeds)) where
  toSolid := h.toSolid
  spelled := .argument h.spelled
  reads := by
    obtain ⟨kids, hreads, htext, hkids⟩ := h.reads
    refine ⟨_, reads_atom_argument h.spelled hreads, ?_⟩
    rw [deedsAll_cons, deeds_argument, htext, hkids]
    simp [argumentDeeds]

theorem RedirectsAs.atom {t : Text} {deeds : List Deed} (h : RedirectsAs t deeds) :
    AtomAs t deeds where
  toSolid := h.toSolid
  spelled := .redirection h.spelled
  reads := by
    obtain ⟨kids, hreads, hkids⟩ := h.reads
    refine ⟨_, reads_atom_redirection h.spelled hreads, ?_⟩
    rw [deedsAll_cons, hkids]
    simp

section Lines

variable {name : Text} {heads tails : List (Text × List Deed)}

theorem exists_heads (h : ∀ x ∈ heads, RedirectsAs x.1 x.2) :
    ∃ spans : List Span, (∀ t ∈ spans, HeadSpan t) ∧
      tokensOf spans = (heads.map Prod.fst).flatMap (fun u => Token.ofText u ++ [gapMark]) ∧
      deedsAll (treesOf spans) = heads.flatMap Prod.snd := by
  induction heads with
  | nil => exact ⟨[], by simp, rfl, rfl⟩
  | cons x heads ih =>
      obtain ⟨spans, hspans, htokens, hdeeds⟩ := ih fun y hy => h y (by simp [hy])
      have hx := h x (by simp)
      obtain ⟨kids, hreads, hkids⟩ := hx.reads
      have hgap : gapMark.kind ∈ gapKinds := by decide
      refine ⟨(Token.ofText x.1 ++ [gapMark], [.node .redirection kids, .leaf gapMark]) :: spans,
        ?_, ?_, ?_⟩
      · intro t ht
        rcases List.mem_cons.mp ht with rfl | ht
        · exact .head hx.spelled hreads hgap
        · exact hspans t ht
      · rw [List.map_cons, List.flatMap_cons, ← htokens]
        rfl
      · have htrees : treesOf ((Token.ofText x.1 ++ [gapMark],
            [.node .redirection kids, .leaf gapMark]) :: spans) =
              .node .redirection kids :: .leaf gapMark :: treesOf spans := rfl
        rw [htrees, deedsAll_cons, deedsAll_cons, hdeeds, hkids, List.flatMap_cons, deeds_leaf,
          List.nil_append]

theorem exists_tails (h : ∀ x ∈ tails, AtomAs x.1 x.2) :
    ∃ spans : List Span, (∀ t ∈ spans, TailSpan t) ∧
      tokensOf spans = (tails.map Prod.fst).flatMap (fun u => gapMark :: Token.ofText u) ∧
      deedsAll (treesOf spans) = tails.flatMap Prod.snd := by
  induction tails with
  | nil => exact ⟨[], by simp, rfl, rfl⟩
  | cons x tails ih =>
      obtain ⟨spans, hspans, htokens, hdeeds⟩ := ih fun y hy => h y (by simp [hy])
      have hx := h x (by simp)
      obtain ⟨kids, hreads, hkids⟩ := hx.reads
      have hgap : gapMark.kind ∈ gapKinds := by decide
      refine ⟨(gapMark :: Token.ofText x.1, [.leaf gapMark, .node .atom kids]) :: spans, ?_, ?_, ?_⟩
      · intro t ht
        rcases List.mem_cons.mp ht with rfl | ht
        · exact .tail hgap hx.spelled hreads
        · exact hspans t ht
      · rw [List.map_cons, List.flatMap_cons, ← htokens]
        rfl
      · have htrees : treesOf ((gapMark :: Token.ofText x.1, [.leaf gapMark, .node .atom kids]) ::
            spans) = .leaf gapMark :: .node .atom kids :: treesOf spans := rfl
        rw [htrees, deedsAll_cons, deedsAll_cons, hdeeds, deeds_atom, hkids, List.flatMap_cons,
          deeds_leaf, List.nil_append]

/-- A line of redirections, an argument and what follows it is one call. -/
theorem exists_consists_line {deeds : List Deed} (hh : ∀ x ∈ heads, RedirectsAs x.1 x.2)
    (hn : ReadAs name deeds) (ht : ∀ x ∈ tails, AtomAs x.1 x.2) :
    ∃ c, Consists (preceding (heads.map Prod.fst) ++ (name ++ following (tails.map Prod.fst)))
        c [] [] ∧
      Tree.deeds (.node .call c.2) = .note .expected ::
        (heads.flatMap Prod.snd ++ (argumentDeeds (name, deeds) ++ tails.flatMap Prod.snd)) ∧
      (heads = [] → startsWithName (.node .call c.2) = Application.isName name) := by
  obtain ⟨kids, hreads, htext, hkids⟩ := hn.reads
  obtain ⟨before, hbefore, hbtokens, hbdeeds⟩ := exists_heads hh
  obtain ⟨behind, hbehind, htokens, hdeeds⟩ := exists_tails ht
  have hspan : CallSpan ([] ++ (tokensOf before ++ (Token.ofText name ++ (tokensOf behind ++ []))),
      [] ++ (treesOf before ++ (.node .argument kids :: (treesOf behind ++ [])))) :=
    .call (Or.inl rfl) hbefore hn.spelled hreads hbehind (Or.inl rfl)
  refine ⟨_, ⟨hspan, ?_, by simp [Ends]⟩, ?_, ?_⟩
  · have hline := ofText_preceding (List.forall_mem_map.mpr fun x hx => (hh x hx).toSolid)
      hn.toSolid (following (tails.map Prod.fst))
    rw [ofText_line hn.toSolid (List.forall_mem_map.mpr fun x hx => (ht x hx).toSolid),
      Token.ofText, ← Token.map_unplaced_scan] at hline
    rw [hline, ← htokens, ← hbtokens]
    simp [joinedTokens]
  · have htrees : [] ++ (treesOf before ++ (.node .argument kids :: (treesOf behind ++ []))) =
        treesOf before ++ .node .argument kids :: treesOf behind := by simp
    rw [htrees, deeds_call, deedsAll_eq_flatMap, List.flatMap_append, List.flatMap_cons,
      ← deedsAll_eq_flatMap, ← deedsAll_eq_flatMap, hbdeeds, hdeeds, deeds_argument, htext, hkids]
    rfl
  · rintro rfl
    obtain rfl : before = [] := by
      cases before with
      | nil => rfl
      | cons x before =>
          obtain ⟨hr, -, -⟩ := hbefore x (by simp)
          simp [tokensOf] at hbtokens
    rw [← htext]
    rfl

/-- The rows of a line that starts with a name are made by what is done for what follows it. -/
theorem blocksOf_atoms (hname : Application.isName name = true)
    (hn : ReadAs name [.note (.word name)]) (h : ∀ x ∈ tails, AtomAs x.1 x.2)
    (run : Text → List Value → World → Running) :
    CallLine (name ++ following (tails.map Prod.fst)) ∧
      blocksOf run (name ++ following (tails.map Prod.fst)) =
        (fun notes => [gather [[name]] notes]) <$>
          (tails.flatMap Prod.snd).mapM (Drafting.settle run) := by
  obtain ⟨c, hconsists, hdeeds, hstarts⟩ := exists_consists_line (List.forall_mem_nil _) hn h
  change Consists (name ++ following (tails.map Prod.fst)) c [] [] at hconsists
  have hcalls : unplacedCalls (name ++ following (tails.map Prod.fst)) = [.node .call c.2] :=
    hconsists.items_unplaced
  constructor
  · apply CallLine.of_unplacedCalls hconsists.read_eq.1
    rw [hcalls]
    intro y hy
    rw [List.mem_singleton.mp hy, hstarts rfl]
    exact ⟨rfl, hname⟩
  · have hrows : rowsIn run (.node .call c.2) =
        gather [[name]] <$> (tails.flatMap Prod.snd).mapM (Drafting.settle run) := by
      have hall : Tree.deeds (.node .call c.2) =
          [.expected, .argument name, .word name].map Deed.note ++ tails.flatMap Prod.snd :=
        hdeeds
      rw [rowsIn, hall, Drafting.mapM_settle_notes, Functor.map_map]
      rfl
    rw [blocksOf_eq, hcalls, List.mapM_cons, hrows]
    simp

/-- The rows of a line of arguments are made by what is done for them. -/
theorem blocksOf_line {xs : List (Text × List Deed)} (hname : Application.isName name = true)
    (hn : ReadAs name [.note (.word name)]) (h : ∀ x ∈ xs, ReadAs x.1 x.2)
    (run : Text → List Value → World → Running) :
    CallLine (name ++ following (xs.map Prod.fst)) ∧
      blocksOf run (name ++ following (xs.map Prod.fst)) =
        (fun notes => [gather [[name]] notes]) <$>
          (xs.flatMap argumentDeeds).mapM (Drafting.settle run) := by
  have hatoms : ∀ y ∈ xs.map fun x => (x.1, argumentDeeds x), AtomAs y.1 y.2 :=
    List.forall_mem_map.mpr fun x hx => (h x hx).atom
  have hline := blocksOf_atoms hname hn hatoms run
  rwa [List.map_map, List.flatMap_map] at hline

end Lines

/-! ### Arguments that are words -/

/-- What is noted of an argument that comes to some words. -/
def wordNotes (x : Text × List Text) : List Note := .argument x.1 :: x.2.map .word

theorem gather_words (row : List Text) (ws : List Text) (notes : List Note) :
    gather [row] (ws.map Note.word ++ notes) = gather [row ++ ws] notes := by
  induction ws generalizing row with
  | nil => simp
  | cons t ws ih =>
      have hstep : gather [row] ((t :: ws).map Note.word ++ notes) =
          gather [row ++ [t]] (ws.map Note.word ++ notes) := rfl
      rw [hstep, ih, List.append_assoc, List.singleton_append]

theorem gather_wordNotes (row : List Text) (xs : List (Text × List Text)) :
    gather [row] (xs.flatMap wordNotes) = [row ++ xs.flatMap Prod.snd] := by
  induction xs generalizing row with
  | nil => simp [gather]
  | cons x xs ih =>
      have hstep : gather [row] ((x :: xs).flatMap wordNotes) =
          gather [row] (x.2.map Note.word ++ xs.flatMap wordNotes) := rfl
      rw [hstep, gather_words, ih, List.flatMap_cons, List.append_assoc]

section Words

variable {name : Text} {xs : List (Text × List Text)}

/-- The words of a line that starts with a name are the row of its call. -/
theorem blocksOf_words (hname : Application.isName name = true)
    (hn : ReadAs name [.note (.word name)])
    (h : ∀ x ∈ xs, ReadAs x.1 (x.2.map fun t => .note (.word t)))
    (run : Text → List Value → World → Running) :
    CallLine (name ++ following (xs.map Prod.fst)) ∧
      blocksOf run (name ++ following (xs.map Prod.fst)) =
        pure [[name :: xs.flatMap Prod.snd]] := by
  have hreads : ∀ y ∈ xs.map fun x => (x.1, x.2.map fun t => Deed.note (.word t)),
      ReadAs y.1 y.2 := List.forall_mem_map.mpr h
  obtain ⟨hline, hblocks⟩ := blocksOf_line hname hn hreads run
  rw [List.map_map] at hline hblocks
  refine ⟨hline, hblocks.trans ?_⟩
  have hnotes : (xs.map fun x => (x.1, x.2.map fun t => Deed.note (.word t))).flatMap
      argumentDeeds = (xs.flatMap wordNotes).map Deed.note := by
    rw [List.flatMap_map, List.map_flatMap]
    refine List.flatMap_congr fun x _ => ?_
    simp [argumentDeeds, wordNotes]
  rw [hnotes, Drafting.mapM_settle_all_notes, map_pure, gather_wordNotes]
  rfl

/-- A line of words runs the application of its first word on the others. -/
theorem runLine_words (hname : Application.isName name = true)
    (hn : ReadAs name [.note (.word name)])
    (h : ∀ x ∈ xs, ReadAs x.1 (x.2.map fun t => .note (.word t))) {w : World} {row : Row}
    (hrow : row = .text name :: (xs.flatMap Prod.snd).map .text)
    (hkept : Command.expandRow w row = (row, none)) (out : List Value) :
    runLine (name ++ following (xs.map Prod.fst)) out w =
      behind out (Command.runRow row [] w).running := by
  obtain ⟨hline, hblocks⟩ := blocksOf_words hname hn h runPlain
  have hreads : Command.ReadsNothing [row] := by
    intro r hr
    refine ⟨_, _, (List.mem_singleton.mp hr).trans hrow, ?_⟩
    exact isText_of_isName hname (by decide)
  have hrows : textRows [name :: xs.flatMap Prod.snd] = [row] := by
    rw [hrow]
    rfl
  rw [runLine, hline.runWith_eq, hblocks]
  change behind out (runBlocks [[name :: xs.flatMap Prod.snd]] [] w) = _
  rw [runBlocks, List.map_singleton, Command.running_runSequence_singleton, hrows,
    Command.running_call_kept hreads hkept]

end Words

end CommandShell
