import CommandShell.Proofs.Isolation
import CommandShell.Proofs.Segments

/-! # Arguments and redirections as they are written

Whatever the grammar takes for an argument is read as one wherever it stands in a line, and what is
done for it depends on its text alone: each of its parts comes to one word. A redirection is an
operator and an argument, and what is done for it is what is done for the argument in a new row. -/

namespace CommandShell

open Parse Grammar Spelling CommandShell.Tree

/-- A text that the grammar takes for an argument. -/
def IsArgumentText (t : Text) : Prop := Derives .argument ((Token.scan t).map Token.kind)

/-- What is done for the parts of an argument: what is done for a line that is nothing else, but for
the notes of the call and of the argument. -/
def partsOf (t : Text) : List Deed := (treeOf t).deeds.drop 2

/-! ### Kinds at the ends of a text -/

namespace Token

theorem kindsOf_ofText (t : Text) : kindsOf (ofText t) = (scan t).map kind := by
  rw [ofText, ← map_unplaced_scan, kindsOf_unplaced]
  rfl

/-- The first token of a text is of the kind of its first character. -/
theorem head?_kinds (t : Text) : (kindsOf (ofText t)).head? = t.head?.map Kind.ofChar := by
  have hruns : ∀ rs : List (Kind × Text), (∀ r ∈ rs, ProperRun r.1 r.2) →
      (kindsOf (rs.map ofRun)).head? = (rs.map Prod.snd).flatten.head?.map Kind.ofChar := by
    intro rs hproper
    cases rs with
    | nil => rfl
    | cons r rs =>
        obtain ⟨hne, hchars, -⟩ := hproper r (by simp)
        obtain ⟨c, cs, hr⟩ := List.exists_cons_of_ne_nil hne
        rw [List.map_cons, List.map_cons, List.flatten_cons, hr]
        exact congrArg some (hchars c (by simp [hr])).symm
  rw [ofText, hruns _ (properRun_runs t), runs_flatten]

/-- The last token of a text is of the kind of its last character. -/
theorem getLast?_kinds (t : Text) : (kindsOf (ofText t)).getLast? = t.getLast?.map Kind.ofChar := by
  have hruns : ∀ rs : List (Kind × Text), (∀ r ∈ rs, ProperRun r.1 r.2) →
      (kindsOf (rs.map ofRun)).getLast? = (rs.map Prod.snd).flatten.getLast?.map Kind.ofChar := by
    intro rs hproper
    rcases List.eq_nil_or_concat rs with rfl | ⟨rs, r, rfl⟩
    · rfl
    · obtain ⟨hne, hchars, -⟩ := hproper r (by simp)
      rcases List.eq_nil_or_concat r.2 with hnil | ⟨cs, c, hr⟩
      · exact absurd hnil hne
      · have hc : Kind.ofChar c = r.1 := hchars c (by simp [hr])
        simp [kindsOf, hr, hc, ofRun]
  rw [ofText, hruns _ (properRun_runs t), runs_flatten]

end Token

theorem Spelling.getLast?_between (k : Kind) (q : List Kind) :
    (between k q).getLast? = some k := by
  rw [between, ← List.cons_append, List.getLast?_concat]

/-- A stretch of an argument ends with a word or a quote. -/
theorem Spelling.Stretch.getLast?_ne {q : List Kind} (h : Stretch q) :
    ∃ k, q.getLast? = some k ∧ k ≠ .blank := by
  cases h with
  | word => exact ⟨.word, rfl, by decide⟩
  | single h => exact ⟨_, getLast?_between _ _, by decide⟩
  | back h => exact ⟨_, getLast?_between _ _, by decide⟩
  | double h => exact ⟨_, getLast?_between _ _, by decide⟩

theorem Spelling.Argument.getLast?_ne {q : List Kind} (h : Argument q) :
    ∃ k, q.getLast? = some k ∧ k ≠ .blank := by
  obtain @⟨ss, hne, h⟩ := h
  rcases List.eq_nil_or_concat ss with hnil | ⟨ss, s, rfl⟩
  · exact absurd hnil hne
  · obtain ⟨k, hk, hblank⟩ := (h s (by simp)).getLast?_ne
    refine ⟨k, ?_, hblank⟩
    rw [List.concat_eq_append, List.flatten_append, List.flatten_singleton, List.getLast?_append, hk]
    rfl

section Arguments

variable {t : Text}

theorem solid_of_argument (h : Argument (kindsOf (Token.ofText t))) : Solid t where
  nonempty := by
    rintro rfl
    obtain ⟨k, hk, -⟩ := h.getLast?_ne
    cases hk
  first := by
    intro c hc
    have hfirst := kindAt_argument h []
    have hkind : (kindsOf (Token.ofText t)).head? = some (Kind.ofChar c) := by
      rw [Token.head?_kinds, Option.mem_def.mp hc]
      rfl
    obtain ⟨ks, hks⟩ := List.head?_eq_some_iff.mp hkind
    rw [hks] at hfirst
    change Kind.ofChar c ∈ _ at hfirst
    intro hblank
    rw [hblank] at hfirst
    exact absurd hfirst (by decide)
  last := by
    intro c hc
    obtain ⟨k, hk, hblank⟩ := h.getLast?_ne
    rw [Token.getLast?_kinds, Option.mem_def.mp hc] at hk
    exact Option.some.inj hk ▸ hblank

/-! ### Trees of arguments -/

theorem Tree.IsDerivation.text_eq {x : Tree} (h : x.IsDerivation) :
    x.text = (x.tokens.map Token.text).flatten := by
  induction h with
  | leaf t => simp [Tree.text, Tree.tokens]
  | @node r kids hr hk ih =>
      rw [text_node, tokens_node]
      clear hr hk
      induction kids with
      | nil => rfl
      | cons y ys ihs =>
          rw [textAll_cons, tokensAll_cons, ih y (by simp), ihs fun z hz => ih z (by simp [hz]),
            List.map_append, List.flatten_append]

theorem Tree.eq_node_of_unplaced {x : Tree} {r : Rule} {kids : List Tree}
    (h : x.unplaced = .node r kids) : ∃ kids', x = .node r kids' ∧ kids'.map unplaced = kids := by
  cases x with
  | node r' kids' =>
      rw [unplaced_node] at h
      injection h with hr hkids
      exact ⟨kids', by rw [hr], hkids⟩
  | leaf t => cases h
  | skipped t => cases h
  | missing k => cases h

/-- The tree of a line that is one call. -/
theorem Parse.Consists.exists_isCall {line : Text} {c : Span} (h : Consists line c [] []) :
    ∃ x, treeOf line = .node .command [x] ∧ x.unplaced = .node .call c.2 ∧ IsCall x := by
  obtain ⟨hcomplaints, htree, -⟩ := h.read_eq
  change (treeOf line).unplaced = .node .command [.node .call c.2] at htree
  obtain ⟨kids, hline, hkids⟩ := eq_node_of_unplaced htree
  obtain ⟨x, rfl, hx⟩ := List.map_eq_singleton_iff.mp hkids
  have hcommand : (treeOf line).IsCommand := (isCommand_of_read hcomplaints).1
  rw [hline] at hcommand
  refine ⟨x, hline, hx, ?_⟩
  cases hcommand with
  | item hitem =>
      cases hitem with
      | call hc => exact hc
      | pipe hp =>
          have hrule := rule?_unplaced x
          rw [hx, hp.rule?_eq] at hrule
          cases hrule

theorem Tree.IsCall.isArgument_of_mem {kids parts : List Tree} (h : IsCall (.node .call kids))
    (hmem : .node .argument parts ∈ kids) : IsArgument (.node .argument parts) := by
  obtain ⟨kids, hkids, hall⟩ := h.kids_cases
  injection hkids with _ hkids
  subst hkids
  rcases hall _ hmem with ⟨ks, h⟩ | h | h | h
  · cases h
  · cases h
  · exact h
  · cases h

/-- The tree of a line that is one argument. -/
theorem exists_tree (h : Argument (kindsOf (Token.ofText t))) :
    ∃ kids, Reads .argument (Token.ofText t) (kids.map unplaced) ∧
      treeOf t = .node .command [.node .call [.node .argument kids]] ∧
      IsArgument (.node .argument kids) ∧ (Tree.node .argument kids).tokens = Token.scan t := by
  obtain ⟨kids, hreads⟩ := builds_argument h
  have hspan : CallSpan (Token.ofText t, [.node .argument kids]) := by
    have hnone : Maybe gapKinds (kindsOf []) := Or.inl rfl
    have hcall := CallSpan.call hnone (List.forall_mem_nil _) h hreads (List.forall_mem_nil _) hnone
    simpa [tokensOf, treesOf] using hcall
  have hconsists : Consists t (Token.ofText t, [.node .argument kids]) [] [] := by
    refine ⟨hspan, ?_, by simp [Ends]⟩
    rw [Token.map_unplaced_scan]
    simp [joinedTokens, Token.ofText]
  obtain ⟨call, hline, hcall, hisCall⟩ := hconsists.exists_isCall
  obtain ⟨arguments, rfl, hinner⟩ := eq_node_of_unplaced hcall
  obtain ⟨argument, rfl, hargument⟩ := List.map_eq_singleton_iff.mp hinner
  obtain ⟨parts, rfl, rfl⟩ := eq_node_of_unplaced hargument
  have htokens : (treeOf t).tokens = Token.scan t := by
    obtain ⟨hcomplaints, -, hnext⟩ := hconsists.read_eq
    have hend : (read .command t).next = (Token.scan t).length := hnext
    exact (isCommand_of_read hcomplaints).2.trans (by rw [hend, List.take_length])
  rw [hline] at htokens
  exact ⟨parts, hreads, hline, hisCall.isArgument_of_mem (List.mem_singleton_self _),
    by simpa using htokens⟩

/-- A text that is spelled as an argument is read as one. -/
theorem readAs_of_argument (h : Argument (kindsOf (Token.ofText t))) : ReadAs t (partsOf t) := by
  obtain ⟨kids, hreads, htree, hargument, htokens⟩ := exists_tree h
  refine ⟨solid_of_argument h, h, kids.map unplaced, hreads, ?_, ?_⟩
  · have htext := (hargument.fits.neat _ (List.mem_singleton_self _)).derivation.text_eq
    rw [text_node, htokens] at htext
    rw [textAll_unplaced, htext, Token.scan_texts]
  · have hdeeds : deedsAll (kids.map unplaced) = deedsAll kids := by
      rw [deedsAll_eq_flatMap, deedsAll_eq_flatMap]
      exact flatMap_unplaced fun x _ => deeds_unplaced x
    rw [hdeeds, partsOf, htree]
    simp [Tree.deeds]

/-- What is spelled as an argument is what the grammar takes for one. -/
theorem isArgumentText_iff : IsArgumentText t ↔ Argument (kindsOf (Token.ofText t)) := by
  constructor
  · intro h
    rw [Token.kindsOf_ofText]
    exact of_derives h
  · intro h
    obtain ⟨kids, -, -, hargument, htokens⟩ := exists_tree h
    have hneat := hargument.fits.neat _ (List.mem_singleton_self _)
    exact ⟨_, hneat.derivation, rfl, congrArg (List.map Token.kind) htokens⟩

theorem ReadAs.isArgumentText {deeds : List Deed} (h : ReadAs t deeds) : IsArgumentText t :=
  isArgumentText_iff.mpr h.spelled

theorem IsArgumentText.readAs (h : IsArgumentText t) : ReadAs t (partsOf t) :=
  readAs_of_argument (isArgumentText_iff.mp h)

/-- A deed that comes to a word. -/
def Deed.MakesWord : Deed → Prop
  | .note (.word _) => True
  | .substitute _ => True
  | _ => False

theorem Tree.IsPiece.makesWord {p : Tree} (h : IsPiece p) : ∀ d ∈ p.deeds, d.MakesWord := by
  have hword : ∀ u : Text, Deed.MakesWord (.note (.word u)) := fun _ => trivial
  have hsubstitute : ∀ u : Text, Deed.MakesWord (.substitute u) := fun _ => trivial
  rcases h with h | h
  · cases h with
    | single h =>
        obtain ⟨ha, hi, hb⟩ := h
        simpa using hword _
    | double h =>
        obtain ⟨hw, ha, hi, hb, hv⟩ := h
        rw [deeds_quoted, deedsAll_cons, deeds_doubleQuoted]
        split
        · simpa using hsubstitute _
        · simpa using hword _
    | back h =>
        obtain ⟨hw, ha, hi, hb, hv⟩ := h
        simpa using hsubstitute _
  · obtain ⟨ha⟩ := h
    simpa using hword _

theorem exists_partsOf (h : IsArgumentText t) :
    ∃ kids, partsOf t = deedsAll kids ∧ IsArgument (.node .argument kids) ∧
      (Tree.node .argument kids).tokens = Token.scan t := by
  obtain ⟨kids, -, htree, hargument, htokens⟩ := exists_tree (isArgumentText_iff.mp h)
  exact ⟨kids, by simp [partsOf, htree, Tree.deeds], hargument, htokens⟩

/-- Every part of an argument comes to a word. -/
theorem IsArgumentText.makesWord (h : IsArgumentText t) : ∀ d ∈ partsOf t, d.MakesWord := by
  obtain ⟨kids, hparts, ⟨hpieces⟩, -⟩ := exists_partsOf h
  intro d hd
  rw [hparts] at hd
  obtain ⟨p, hp, hd⟩ := mem_deedsAll.mp hd
  exact (hpieces p hp).makesWord d hd

/-- Without back quotes nothing is run for an argument. -/
theorem IsArgumentText.exists_notes (h : IsArgumentText t) (hb : Text.backQuote ∉ t) :
    ∃ notes : List Note, partsOf t = notes.map .note := by
  obtain ⟨kids, hparts, hargument, htokens⟩ := exists_partsOf h
  have hplain : Plain (.node .argument kids) := by
    refine ⟨htokens ▸ Token.lexed_scan t, ?_⟩
    rw [htokens]
    exact fun k => Token.kind_ne_backMark hb
  have hdeeds := hargument.deeds_eq hplain
  rw [deeds_argument, notes_argument, List.map_cons] at hdeeds
  exact ⟨notesAll kids, hparts.trans (List.cons.inj hdeeds).2⟩

end Arguments

/-! ### Redirections -/

/-- A redirection as it is written. -/
structure WrittenRedirection where
  operator : Command.Operator
  gap : Text
  target : Text
  blank : ∀ c ∈ gap, c = ' ' ∨ c = '\t'
  isArgument : IsArgumentText target

namespace WrittenRedirection

variable (r : WrittenRedirection)

def text : Text := r.operator.text ++ (r.gap ++ r.target)

/-- What is done for a redirection. -/
def deeds : List Deed :=
  .note (.redirection r.operator.text) :: argumentDeeds (r.target, partsOf r.target)

theorem kind_gap : ∀ c ∈ r.gap, Kind.ofChar c = .blank := by
  intro c hc
  rcases r.blank c hc with rfl | rfl <;> rfl

theorem maybe_gap : Maybe [.blank] (kindsOf (Token.ofText r.gap)) := by
  by_cases hne : r.gap = []
  · rw [hne]
    exact Or.inl rfl
  · rw [Token.ofText, Token.runs_of_kind rfl hne r.kind_gap]
    exact Or.inr ⟨.blank, List.mem_singleton_self _, rfl⟩

theorem ofText_eq : Token.ofText r.text =
    r.operator.text.map markOf ++ (Token.ofText r.gap ++ Token.ofText r.target) := by
  have hgap : Token.ofText (r.gap ++ r.target) = Token.ofText r.gap ++ Token.ofText r.target := by
    apply Token.ofText_append_of_ne
    intro a ha b hb
    rw [r.kind_gap a (List.mem_of_getLast? ha)]
    exact (r.isArgument.readAs.first b hb).symm
  have hmark : ∀ (c : Char) (rest : Text), (Kind.ofChar c).isRun = false →
      Token.ofText (c :: rest) = markOf c :: Token.ofText rest := fun c rest hc =>
    Token.ofText_append_mark hc [] rest
  rw [text, ← hgap]
  cases r.operator with
  | input => exact hmark '<' _ rfl
  | output => exact hmark '>' _ rfl
  | appending => exact (hmark '>' _ rfl).trans (congrArg _ (hmark '>' _ rfl))

theorem solid : Solid r.text where
  nonempty := by
    rw [text]
    cases r.operator <;> simp [Command.Operator.text]
  first := by
    intro c hc
    rw [text] at hc
    cases ho : r.operator <;> rw [ho] at hc <;> (obtain rfl := Option.some.inj hc; decide)
  last := by
    rw [text, ← List.append_assoc, List.getLast?_append_of_ne_nil _ r.isArgument.readAs.nonempty]
    exact r.isArgument.readAs.last

theorem reads {kids : List Tree} (h : Reads .argument (Token.ofText r.target) kids) :
    Redirection (kindsOf (Token.ofText r.text)) ∧
      Reads .redirection (Token.ofText r.text) ((r.operator.text.map markOf).map .leaf ++
        ((Token.ofText r.gap).map .leaf ++ [.node .argument kids])) := by
  have hspelled := r.isArgument.readAs.spelled
  rw [ofText_eq, kindsOf_append, kindsOf_append]
  cases r.operator with
  | input =>
      have hkinds := Redirection.input r.maybe_gap hspelled
      exact ⟨hkinds, builds_input rfl r.maybe_gap hspelled h⟩
  | output =>
      have hkinds := Redirection.output (Or.inl rfl) r.maybe_gap hspelled
      have hone : Maybe [.greater] (kindsOf []) := Or.inl rfl
      exact ⟨hkinds, builds_output rfl hone r.maybe_gap hspelled h⟩
  | appending =>
      have htwo : Maybe [.greater] (kindsOf [markOf '>']) :=
        Or.inr ⟨.greater, List.mem_singleton_self _, rfl⟩
      have hkinds := Redirection.output htwo r.maybe_gap hspelled
      exact ⟨hkinds, builds_output rfl htwo r.maybe_gap hspelled h⟩

theorem sign_eq (kids : List Tree) :
    sign (.node .redirection ((r.operator.text.map markOf).map .leaf ++
      ((Token.ofText r.gap).map .leaf ++ [.node .argument kids]))) = r.operator.text := by
  have hgap : ((Token.ofText r.gap).map Tree.leaf).filter isOperator = [] := by
    rw [List.filter_eq_nil_iff]
    intro x hx
    obtain ⟨u, hu, rfl⟩ := List.mem_map.mp hx
    have hblank : u.kind = .blank := Token.kind_of_mem_ofText (p := (· = .blank)) r.kind_gap u hu
    simp [isOperator, kind?, hblank]
  have hargument : [Tree.node .argument kids].filter isOperator = [] := rfl
  rw [sign, Tree.kids, List.filter_append, List.filter_append, hgap, hargument]
  cases r.operator <;> rfl

/-- A redirection is read as it is written. -/
theorem redirectsAs : RedirectsAs r.text r.deeds := by
  obtain ⟨kids, hreads, htext, hkids⟩ := r.isArgument.readAs.reads
  obtain ⟨hspelled, hread⟩ := r.reads hreads
  have hleaves : ∀ ts : List Token, deedsAll (ts.map .leaf) = [] := by
    intro ts
    rw [deedsAll_eq_flatMap, List.flatMap_map]
    simp
  refine ⟨r.solid, hspelled, _, hread, ?_⟩
  rw [deeds_redirection, sign_eq, deedsAll_eq_flatMap, List.flatMap_append, List.flatMap_append,
    ← deedsAll_eq_flatMap, ← deedsAll_eq_flatMap, hleaves, hleaves, List.flatMap_singleton,
    deeds_argument, htext, hkids]
  rfl

end WrittenRedirection

end CommandShell
