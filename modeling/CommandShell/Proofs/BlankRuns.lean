import CommandShell.Proofs.AlikeReadings
import CommandShell.Proofs.CallLines

/-! # Runs of blanks

Where a line without quotes has blanks it does not matter how many there are, or of which sort.
They are read as gaps, no gap is part of a word, and the sign of a redirection is made of its
operators only; so the draft of the line is the same with other blanks in their place. -/

namespace CommandShell

/-! ### Texts and tokens -/

/-- The kinds of quotes. -/
def Kind.quotes : List Kind := [.singleMark, .doubleMark, .backMark]

/-- A text without quotes of any sort. -/
structure Text.Quoteless (t : Text) : Prop where
  single : Text.singleQuote ∉ t
  double : Text.doubleQuote ∉ t
  back : Text.backQuote ∉ t

namespace Token

theorem exists_mem_scan {text : Text} {c : Char} (h : c ∈ text) :
    ∃ t ∈ scan text, t.kind = Kind.ofChar c := by
  rw [← scan_texts text, List.mem_flatten] at h
  obtain ⟨_, hl, hc⟩ := h
  obtain ⟨t, ht, rfl⟩ := List.mem_map.mp hl
  exact ⟨t, ht, (((lexed_scan text).proper t ht).chars c hc).symm⟩

/-- Quotes show as tokens of their kinds. -/
theorem quoteless_iff {text : Text} :
    text.Quoteless ↔ ∀ k ∈ (scan text).map Token.kind, k ∉ Kind.quotes := by
  constructor
  · intro h k hk hquote
    obtain ⟨t, ht, rfl⟩ := List.mem_map.mp hk
    have hp := (lexed_scan text).proper t ht
    obtain ⟨c, hc⟩ := List.exists_mem_of_ne_nil t.text hp.nonempty
    have hholds := Kind.holds_ofChar c
    rw [hp.chars c hc] at hholds
    have hnot : ∀ d : Char, d ∉ text → c ≠ d := fun d hd hcd =>
      notMem_of_mem_scan hd ht (hcd ▸ hc)
    simp only [Kind.quotes, List.mem_cons, List.not_mem_nil, or_false] at hquote
    rcases hquote with hk | hk | hk
    · exact hnot _ h.single (by rwa [hk] at hholds)
    · exact hnot _ h.double (by rwa [hk] at hholds)
    · exact hnot _ h.back (by rwa [hk] at hholds)
  · intro h
    have hnot : ∀ c : Char, Kind.ofChar c ∈ Kind.quotes → c ∉ text := by
      intro c hc hmem
      obtain ⟨t, ht, hk⟩ := exists_mem_scan hmem
      exact h t.kind (List.mem_map_of_mem ht) (hk ▸ hc)
    exact ⟨hnot _ (by decide), hnot _ (by decide), hnot _ (by decide)⟩

/-- The token at no place in particular and, if it is blank, without its text. -/
def unspaced (t : Token) : Token := ⟨t.kind, if t.kind = .blank then [] else t.text, 0, 0, 0⟩

theorem text_unspaced {t : Token} (h : t.kind ≠ .blank) : t.unspaced.text = t.text := if_neg h

/-- Tokens of one kind and, unless it is blank, of one text. -/
def SameButBlank (s t : Token) : Prop := s.kind = t.kind ∧ (s.kind ≠ .blank → s.text = t.text)

instance : DecidableRel SameButBlank := fun s t =>
  inferInstanceAs (Decidable (s.kind = t.kind ∧ (s.kind ≠ .blank → s.text = t.text)))

theorem SameButBlank.unspaced_eq {s t : Token} (h : SameButBlank s t) :
    s.unspaced = t.unspaced := by
  rw [unspaced, unspaced, ← h.1]
  by_cases hb : s.kind = .blank
  · rw [if_pos hb, if_pos hb]
  · rw [if_neg hb, if_neg hb, h.2 hb]

theorem map_unspaced_eq {ss ts : List Token} (h : List.Forall₂ SameButBlank ss ts) :
    ss.map unspaced = ts.map unspaced := by
  induction h with
  | nil => rfl
  | cons hst _ ih => rw [List.map_cons, List.map_cons, hst.unspaced_eq, ih]

end Token

/-- Texts with the same tokens, but for the texts of blanks. -/
def Respaced (a b : Text) : Prop :=
  List.Forall₂ Token.SameButBlank (Token.scan a) (Token.scan b)

namespace Respaced

variable {a b : Text}

theorem map_unspaced (h : Respaced a b) :
    (Token.scan a).map Token.unspaced = (Token.scan b).map Token.unspaced :=
  Token.map_unspaced_eq h

theorem map_kind (h : Respaced a b) :
    (Token.scan a).map Token.kind = (Token.scan b).map Token.kind := by
  have hkinds := congrArg (List.map Token.kind) h.map_unspaced
  rwa [List.map_map, List.map_map] at hkinds

theorem quoteless (h : Respaced a b) (ha : a.Quoteless) : b.Quoteless :=
  Token.quoteless_iff.mpr (h.map_kind ▸ Token.quoteless_iff.mp ha)

end Respaced

/-! ### Trees -/

namespace Tree

/-- The tree without the places of its tokens and without the texts of blanks. -/
def unspaced (t : Tree) : Tree := t.mapTokens Token.unspaced

@[simp] theorem unspaced_node (r : Rule) (kids : List Tree) :
    unspaced (.node r kids) = .node r (kids.map unspaced) := mapTokens_node _ r kids

@[simp] theorem unspaced_leaf (t : Token) : unspaced (.leaf t) = .leaf t.unspaced := rfl

@[simp] theorem rule?_unspaced (t : Tree) : t.unspaced.rule? = t.rule? := rule?_mapTokens _ t

@[simp] theorem isOperator_unspaced (t : Tree) : t.unspaced.isOperator = t.isOperator := by
  cases t <;> rfl

theorem textAll_unspaced {kids : List Tree} (h : ∀ x ∈ kids, x.unspaced.text = x.text) :
    textAll (kids.map unspaced) = textAll kids := by
  rw [textAll_eq_flatMap, textAll_eq_flatMap, List.flatMap_map]
  exact List.flatMap_congr h

theorem notesAll_unspaced {kids : List Tree} (h : ∀ x ∈ kids, x.unspaced.notes = x.notes) :
    notesAll (kids.map unspaced) = notesAll kids := by
  induction kids with
  | nil => rfl
  | cons x kids ih =>
      obtain ⟨hx, hkids⟩ := List.forall_mem_cons.mp h
      rw [List.map_cons, notesAll_cons, notesAll_cons, hx, ih hkids]

theorem outermost_unspaced (rs : List Rule) (t : Tree) :
    t.unspaced.outermost rs = (t.outermost rs).map unspaced := outermost_mapTokens _ rs t

/-- A blank is no part of the operator of a redirection. -/
theorem sign_unspaced (t : Tree) : t.unspaced.sign = t.sign := by
  have htext : ∀ x : Tree, x.isOperator = true → x.unspaced.text = x.text := by
    intro x hx
    cases x with
    | node r kids => cases hx
    | missing k => rfl
    | leaf t | skipped t =>
        refine Token.text_unspaced fun hb => ?_
        simp [isOperator, kind?, hb] at hx
  have hkids : t.unspaced.kids = t.kids.map unspaced := kids_mapTokens _ t
  have hfilter : (t.kids.map unspaced).filter isOperator =
      (t.kids.filter isOperator).map unspaced := by
    rw [List.filter_map]
    exact congrArg _ (List.filter_congr fun x _ => isOperator_unspaced x)
  rw [sign, sign, hkids, hfilter]
  exact textAll_unspaced fun x hx => htext x (List.mem_filter.mp hx).2

/-- A tree without tokens for quotes. -/
def Quoteless (t : Tree) : Prop := ∀ k ∈ t.tokens, k.kind ∉ Kind.quotes

variable {t : Tree}

theorem Quoteless.kid {r : Rule} {kids : List Tree} (h : Quoteless (.node r kids)) {x : Tree}
    (hx : x ∈ kids) : Quoteless x := fun k hk => h k (mem_tokensAll hx hk)

theorem IsLeaf.not_quoteless {ks : List Kind} {x : Tree} {r : Rule} {kids : List Tree}
    (h : IsLeaf ks x) (hx : x ∈ kids) (hks : ks ⊆ Kind.quotes) : ¬ Quoteless (.node r kids) := by
  intro hq
  obtain ⟨a, rfl, ha⟩ := h.exists_leaf
  exact hq.kid hx a (List.mem_singleton.mpr rfl) (hks ha)

theorem IsQuoted.not_quoteless (h : IsQuoted t) : ¬ Quoteless t := by
  intro hq
  cases h with
  | single h =>
      have hkid := hq.kid (List.mem_singleton.mpr rfl)
      obtain ⟨ha, -, -⟩ := h
      exact ha.not_quoteless (by simp) (by decide) hkid
  | double h =>
      have hkid := hq.kid (List.mem_singleton.mpr rfl)
      obtain ⟨-, ha, -, -, -⟩ := h
      exact ha.not_quoteless (by simp) (by decide) hkid
  | back h =>
      have hkid := hq.kid (List.mem_singleton.mpr rfl)
      obtain ⟨-, ha, -, -, -⟩ := h
      exact ha.not_quoteless (by simp) (by decide) hkid

/-! ### What is met in a tree -/

theorem IsLeaf.notes_unspaced {ks : List Kind} (h : IsLeaf ks t) : t.unspaced.notes = t.notes := by
  obtain ⟨a, rfl, -⟩ := h.exists_leaf
  rfl

theorem IsUnquoted.text_unspaced (h : IsUnquoted t) : t.unspaced.text = t.text := by
  obtain ⟨ha⟩ := h
  obtain ⟨a, rfl, hk⟩ := ha.exists_leaf
  have hblank : a.kind ≠ .blank := by
    rw [List.mem_singleton.mp hk]
    decide
  simp [Token.text_unspaced hblank]

theorem IsUnquoted.notes_unspaced (h : IsUnquoted t) : t.unspaced.notes = t.notes := by
  have htext := h.text_unspaced
  obtain ⟨ha⟩ := h
  rw [unspaced_node, text_node, text_node] at htext
  rw [unspaced_node, notes_unquoted, notes_unquoted, htext]

theorem IsArgument.notes_unspaced (h : IsArgument t) (hq : Quoteless t) :
    t.unspaced.notes = t.notes := by
  obtain ⟨hps⟩ := h
  next p ps =>
  have hunquoted : ∀ x ∈ p :: ps, IsUnquoted x := fun x hx =>
    (hps x hx).resolve_left fun hquoted => hquoted.not_quoteless (hq.kid hx)
  rw [unspaced_node, notes_argument, notes_argument,
    textAll_unspaced fun x hx => (hunquoted x hx).text_unspaced,
    notesAll_unspaced fun x hx => (hunquoted x hx).notes_unspaced]

theorem IsRedirection.notes_unspaced (h : IsRedirection t) (hq : Quoteless t) :
    t.unspaced.notes = t.notes := by
  obtain ⟨kids, rfl, hkids⟩ := h.kids_cases
  have hsign := sign_unspaced (.node .redirection kids)
  have hnotes : notesAll (kids.map unspaced) = notesAll kids := by
    refine notesAll_unspaced fun x hx => ?_
    rcases hkids x hx with ⟨ks, hleaf⟩ | hargument
    · exact hleaf.notes_unspaced
    · exact hargument.notes_unspaced (hq.kid hx)
  rw [unspaced_node] at hsign ⊢
  rw [notes_redirection, notes_redirection, hsign, hnotes]

theorem IsAtom.notes_unspaced (h : IsAtom t) (hq : Quoteless t) : t.unspaced.notes = t.notes := by
  have hkid : ∀ x, t = .node .atom [x] → x.unspaced.notes = x.notes →
      t.unspaced.notes = t.notes := by
    rintro x rfl hx
    rw [unspaced_node, notes_atom, notes_atom]
    exact notesAll_unspaced (List.forall_mem_singleton.mpr hx)
  cases h with
  | redirection h => exact hkid _ rfl (h.notes_unspaced (hq.kid (List.mem_singleton.mpr rfl)))
  | argument h => exact hkid _ rfl (h.notes_unspaced (hq.kid (List.mem_singleton.mpr rfl)))

theorem IsCall.notes_unspaced (h : IsCall t) (hq : Quoteless t) : t.unspaced.notes = t.notes := by
  obtain ⟨kids, rfl, hkids⟩ := h.kids_cases
  rw [unspaced_node, notes_call, notes_call]
  refine congrArg _ (notesAll_unspaced fun x hx => ?_)
  rcases hkids x hx with ⟨ks, hleaf⟩ | hredirection | hargument | hatom
  · exact hleaf.notes_unspaced
  · exact hredirection.notes_unspaced (hq.kid hx)
  · exact hargument.notes_unspaced (hq.kid hx)
  · exact hatom.notes_unspaced (hq.kid hx)

theorem IsPipe.notes_unspaced (h : IsPipe t) (hq : Quoteless t) : t.unspaced.notes = t.notes := by
  have hkids : ∀ {a s b : Tree}, a.unspaced.notes = a.notes → IsLeaf [.bar] s → IsCall b →
      Quoteless b → notesAll ([a, s, b].map unspaced) = notesAll [a, s, b] := by
    intro a s b ha hs hb hqb
    refine notesAll_unspaced ?_
    simp only [List.forall_mem_cons, List.not_mem_nil, IsEmpty.forall_iff, implies_true, and_true]
    exact ⟨ha, hs.notes_unspaced, hb.notes_unspaced hqb⟩
  induction h with
  | two ha hs hb =>
      rw [unspaced_node, notes_pipe, notes_pipe,
        hkids (ha.notes_unspaced (hq.kid (by simp))) hs hb (hq.kid (by simp))]
  | more _ hs hb ih =>
      rw [unspaced_node, notes_pipe, notes_pipe,
        hkids (ih (hq.kid (by simp))) hs hb (hq.kid (by simp))]

theorem IsCommand.notes_unspaced (h : IsCommand t) (hq : Quoteless t) :
    ∀ x ∈ t.items, x.unspaced.notes = x.notes := by
  intro x hx
  obtain ⟨hqx, hpipe | hcall⟩ := h.each_of_kid Quoteless.kid hq x hx
  · exact hpipe.notes_unspaced hqx
  · exact hcall.notes_unspaced hqx

end Tree

/-! ### Drafts -/

namespace Draft

theorem item_unspaced {x : Tree} (h : x.unspaced.notes = x.notes) (d : Draft) :
    d.item x.unspaced = d.item x := by
  rw [item, item, Tree.rule?_unspaced, h]

theorem join_unspaced {xs : List Tree} (h : ∀ x ∈ xs, x.unspaced.notes = x.notes) (d : Draft) :
    join (xs.map Tree.unspaced) d = join xs d := by
  induction xs generalizing d with
  | nil => rfl
  | cons x xs ih =>
      obtain ⟨hx, hxs⟩ := List.forall_mem_cons.mp h
      simp only [List.map_cons, join, item_unspaced hx, ih hxs]

theorem ofItems_unspaced {xs : List Tree} (h : ∀ x ∈ xs, x.unspaced.notes = x.notes)
    (d : Draft) : ofItems (xs.map Tree.unspaced) d = ofItems xs d := by
  cases xs with
  | nil => rfl
  | cons x xs =>
      obtain ⟨hx, hxs⟩ := List.forall_mem_cons.mp h
      simp only [List.map_cons, ofItems, item_unspaced hx, join_unspaced hxs]

end Draft

/-- Trees that are the same but for blanks come to the same draft and the same commands. -/
theorem drafted_unspaced {t u : Tree} (ht : t.IsCommand) (hu : u.IsCommand) (hqt : t.Quoteless)
    (hqu : u.Quoteless) (h : t.unspaced = u.unspaced) (w : World) (d : Draft) :
    drafted t w (Draft.ofItems t.items d) = drafted u w (Draft.ofItems u.items d) := by
  have hitems : t.items.map Tree.unspaced = u.items.map Tree.unspaced := by
    rw [Tree.items, Tree.items, ← Tree.outermost_unspaced, ← Tree.outermost_unspaced, h]
  have hrules : t.items.map Tree.rule? = u.items.map Tree.rule? := by
    have hmap := congrArg (List.map Tree.rule?) hitems
    simpa only [List.map_map, Function.comp_def, Tree.rule?_unspaced] using hmap
  have hcommands : Drafting.commands t = Drafting.commands u := by
    funext d
    rw [ht.commands_eq, hu.commands_eq, hrules]
  have hdraft : Draft.ofItems t.items d = Draft.ofItems u.items d := by
    rw [← Draft.ofItems_unspaced (ht.notes_unspaced hqt), hitems,
      Draft.ofItems_unspaced (hu.notes_unspaced hqu)]
  rw [hdraft]
  cases Draft.ofItems u.items d with
  | error d' => rfl
  | ok d' => rw [drafted, drafted, hcommands]

/-- A line without quotes that is read without a complaint, and a line with other blanks in the
places of its blanks: this is read without a complaint too, just as far, and comes to the same
draft and commands, or fails to in the same way; so it is run in the same way. -/
theorem blanks_irrelevant {a b : Text} (h : Respaced a b) (hq : a.Quoteless)
    (ha : (Parse.read .command a).complaints = []) :
    (Parse.read .command b).complaints = [] ∧
      (Parse.read .command b).next = (Parse.read .command a).next ∧
      (∀ run w, draftWith run a w = draftWith run b w) ∧
      ∀ out w, runLine a out w = runLine b out w := by
  obtain ⟨hb, hnext⟩ := Parse.read_of_kinds h.map_kind ha
  have hqb := h.quoteless hq
  have hquoteless : ∀ {line : Text}, line.Quoteless →
      (Parse.read .command line).complaints = [] → (treeOf line).Quoteless := by
    intro line hline hread k hk
    rw [treeOf, (Parse.isCommand_of_read hread).2] at hk
    exact Token.quoteless_iff.mp hline k.kind (List.mem_map_of_mem (List.mem_of_mem_take hk))
  have htree : (treeOf a).unspaced = (treeOf b).unspaced :=
    Parse.read_alike (fun _ => rfl) h.map_unspaced rfl ha hb
  have hdraft : ∀ run w, draftWith run a w = draftWith run b w := by
    intro run w
    rw [Clear.draftWith_eq ⟨ha, hq.back⟩, Clear.draftWith_eq ⟨hb, hqb.back⟩]
    exact drafted_unspaced (Parse.isCommand_of_read ha).1 (Parse.isCommand_of_read hb).1
      (hquoteless hq ha) (hquoteless hqb hb) htree w Draft.empty
  refine ⟨hb, hnext, hdraft, fun out w => ?_⟩
  rw [runLine, runLine, runWith, runWith, hdraft]

/-- Tabs and more spaces, between words and behind the operators of redirections. -/
theorem blanks_irrelevant_tabs :
    Respaced "sort < f | uniq >> g;echo a ".toList "sort\t<  f  |\tuniq \t>>\tg;echo   a\t".toList ∧
      Text.Quoteless "sort < f | uniq >> g;echo a ".toList ∧
      (Parse.read .command "sort < f | uniq >> g;echo a ".toList).complaints = [] ∧
      (Parse.read .command "sort\t<  f  |\tuniq \t>>\tg;echo   a\t".toList).complaints = [] ∧
      runLine "sort < f | uniq >> g;echo a ".toList [] World.bare =
        runLine "sort\t<  f  |\tuniq \t>>\tg;echo   a\t".toList [] World.bare := by
  have hspaced : Respaced "sort < f | uniq >> g;echo a ".toList
      "sort\t<  f  |\tuniq \t>>\tg;echo   a\t".toList := by
    rw [Respaced]
    decide +kernel
  have hquoteless : Text.Quoteless "sort < f | uniq >> g;echo a ".toList :=
    ⟨by decide, by decide, by decide⟩
  have hread : (Parse.read .command "sort < f | uniq >> g;echo a ".toList).complaints = [] := by
    decide +kernel
  obtain ⟨hread', -, -, hrun⟩ := blanks_irrelevant hspaced hquoteless hread
  exact ⟨hspaced, hquoteless, hread, hread', hrun [] World.bare⟩

end CommandShell
