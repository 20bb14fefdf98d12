import CommandShell.Proofs.Outline
import CommandShell.Script.Drafting

/-! # The notes of trees of the grammar

In a tree without back quotes every part of a call leaves the notes that its rule lets expect. An
argument that is the name of an application is one unquoted word. -/

namespace CommandShell

namespace Application

theorem eq_name_of_ofName? {t : Text} {a : Application} (h : ofName? t = some a) : t = a.name := by
  have hp := List.find?_some h
  exact (of_decide_eq_true hp).symm

theorem isName_iff {t : Text} :
    isName t = true ↔ ∃ a : Application, t = a.name ∨ t = '_' :: a.name := by
  constructor
  · intro h
    unfold isName at h
    split at h
    · next rest =>
        obtain ⟨a, ha⟩ := Option.isSome_iff_exists.mp h
        exact ⟨a, Or.inr (by rw [eq_name_of_ofName? ha])⟩
    · obtain ⟨a, ha⟩ := Option.isSome_iff_exists.mp h
      exact ⟨a, Or.inl (eq_name_of_ofName? ha)⟩
  · rintro ⟨a, rfl | rfl⟩
    · cases a <;> decide
    · cases a <;> decide

/-- The characters of a name are such as stand in words. -/
theorem ofChar_of_isName {t : Text} (h : isName t = true) : ∀ c ∈ t, Kind.ofChar c = .word := by
  have hall : ∀ a : Application, a.name.all (fun c => Kind.ofChar c = .word) = true := by
    intro a
    cases a <;> rfl
  intro c hc
  obtain ⟨a, rfl | rfl⟩ := isName_iff.mp h
  · simpa using List.all_eq_true.mp (hall a) c hc
  · rcases List.mem_cons.mp hc with rfl | hc
    · rfl
    · simpa using List.all_eq_true.mp (hall a) c hc

end Application

namespace Tree

/-- Leaves that are tokens of one text, in their order. -/
def Scanned (t : Tree) : Prop := Token.Lexed t.tokens

/-- Leaves that are tokens of one text without back quotes, in their order. -/
structure Plain (t : Tree) : Prop where
  lexed : Token.Lexed t.tokens
  quoted : ∀ k ∈ t.tokens, k.kind ≠ .backMark

theorem tokensAll_split {x : Tree} {kids : List Tree} (h : x ∈ kids) :
    ∃ before after, tokensAll kids = before ++ (x.tokens ++ after) := by
  induction kids with
  | nil => cases h
  | cons y ys ih =>
      rcases List.mem_cons.mp h with rfl | h
      · exact ⟨[], tokensAll ys, rfl⟩
      · obtain ⟨before, after, he⟩ := ih h
        refine ⟨y.tokens ++ before, after, ?_⟩
        rw [tokensAll_cons, he, List.append_assoc]

theorem mem_tokensAll {x : Tree} {kids : List Tree} (h : x ∈ kids) {k : Token}
    (hk : k ∈ x.tokens) : k ∈ tokensAll kids := by
  obtain ⟨before, after, he⟩ := tokensAll_split h
  rw [he]
  exact List.mem_append_right _ (List.mem_append_left _ hk)

namespace Scanned

theorem kid {r : Rule} {kids : List Tree} (h : Scanned (.node r kids)) {x : Tree}
    (hx : x ∈ kids) : Scanned x := by
  obtain ⟨before, after, he⟩ := tokensAll_split hx
  rw [Scanned, tokens_node, he] at h
  exact h.right.left

theorem proper {t : Tree} (h : Scanned t) {k : Token} (hk : k ∈ t.tokens) :
    Token.ProperRun k.kind k.text := Token.Lexed.proper h k hk

/-- The character of a token that is a mark. -/
theorem mark {a : Token} {c : Char} (h : Scanned (.leaf a)) (hrun : a.kind.isRun = false)
    (hc : ∀ d, Kind.ofChar d = a.kind → d = c) : a.text = [c] := by
  have hp := h.proper (List.mem_singleton.mpr rfl)
  obtain ⟨d, hd⟩ := List.length_eq_one_iff.mp (hp.mark hrun)
  rw [hd, hc d (hp.chars d (by simp [hd]))]

/-- No character of a leaf is of a kind other than the leaf's. -/
theorem ofChar_leaf {a : Token} (h : Scanned (.leaf a)) {c : Char} (hc : c ∈ a.text) :
    Kind.ofChar c = a.kind := (h.proper (List.mem_singleton.mpr rfl)).chars c hc

theorem leaf_nonempty {a : Token} (h : Scanned (.leaf a)) : a.text ≠ [] :=
  (h.proper (List.mem_singleton.mpr rfl)).nonempty

end Scanned

namespace Plain

theorem scanned {t : Tree} (h : Plain t) : Scanned t := h.lexed

theorem kid {r : Rule} {kids : List Tree} (h : Plain (.node r kids)) {x : Tree} (hx : x ∈ kids) :
    Plain x := by
  constructor
  · exact h.scanned.kid hx
  · intro k hk
    exact h.quoted k (mem_tokensAll hx hk)

end Plain

theorem IsLeaf.exists_leaf {ks : List Kind} {x : Tree} (h : IsLeaf ks x) :
    ∃ a, x = .leaf a ∧ a.kind ∈ ks := by
  obtain ⟨hk⟩ := h
  exact ⟨_, rfl, hk⟩

/-- A node in whose leaves a mark stands shows a character that stands in no word. -/
theorem exists_mark {r : Rule} {kids : List Tree} (hp : Scanned (.node r kids)) {x : Tree}
    (hx : x ∈ kids) {k : Kind} (hk : IsLeaf [k] x) (hw : k ≠ .word) :
    ∃ c ∈ textAll kids, Kind.ofChar c ≠ .word := by
  obtain ⟨a, rfl, ha⟩ := hk.exists_leaf
  rw [List.mem_singleton] at ha
  have hpa := hp.kid hx
  obtain ⟨c, hc⟩ := List.exists_mem_of_ne_nil _ hpa.leaf_nonempty
  refine ⟨c, ?_, ?_⟩
  · exact mem_textAll hx hc
  · rw [hpa.ofChar_leaf hc, ha]
    exact hw

theorem IsQuoted.exists_mark {t : Tree} (h : IsQuoted t) (hp : Scanned t) :
    ∃ c ∈ t.text, Kind.ofChar c ≠ .word := by
  cases h with
  | single h =>
      have hpk := hp.kid (List.mem_singleton.mpr rfl)
      obtain ⟨ha, hi, hb⟩ := h
      obtain ⟨c, hc, hw⟩ := Tree.exists_mark hpk (by simp) ha (by decide)
      exact ⟨c, by simpa using hc, hw⟩
  | double h =>
      have hpk := hp.kid (List.mem_singleton.mpr rfl)
      obtain ⟨hbefore, ha, hi, hb, hafter⟩ := h
      obtain ⟨c, hc, hw⟩ := Tree.exists_mark hpk (by simp) ha (by decide)
      exact ⟨c, by simpa using hc, hw⟩
  | back h =>
      have hpk := hp.kid (List.mem_singleton.mpr rfl)
      obtain ⟨hbefore, ha, hi, hb, hafter⟩ := h
      obtain ⟨c, hc, hw⟩ := Tree.exists_mark hpk (by simp) ha (by decide)
      exact ⟨c, by simpa using hc, hw⟩

/-- In an argument that is a name no piece is quoted. -/
theorem IsPiece.unquoted_of_isName {t p : Tree} {kids : List Tree} (h : IsPiece p)
    (hp : Scanned p) (hm : p ∈ kids) (ht : t = .node .argument kids)
    (hn : Application.isName t.text = true) : IsUnquoted p := by
  rcases h with h | h
  · obtain ⟨c, hc, hw⟩ := h.exists_mark hp
    have hmem : c ∈ t.text := by
      rw [ht, text_node]
      obtain ⟨before, after, rfl⟩ := List.append_of_mem hm
      rw [textAll_append, textAll_cons]
      exact List.mem_append_right _ (List.mem_append_left _ hc)
    exact absurd (Application.ofChar_of_isName hn c hmem) hw
  · exact h

/-- An argument that is the name of an application is one unquoted word. -/
theorem IsArgument.eq_of_isName {t : Tree} (h : IsArgument t) (hp : Scanned t)
    (hn : Application.isName t.text = true) :
    ∃ a : Token, t = .node .argument [.node .unquoted [.leaf a]] ∧ a.text = t.text := by
  obtain ⟨hps⟩ := h
  next p ps =>
  have hunquoted : ∀ q ∈ p :: ps, IsUnquoted q := fun q hq =>
    (hps q hq).unquoted_of_isName (hp.kid hq) hq rfl hn
  obtain ⟨hx⟩ := hunquoted p (by simp)
  obtain ⟨a, rfl, ha⟩ := hx.exists_leaf
  cases ps with
  | nil => exact ⟨a, rfl, by simp⟩
  | cons q qs =>
      -- Two words in a row would have been one token.
      obtain ⟨hy⟩ := hunquoted q (by simp)
      obtain ⟨b, rfl, hb⟩ := hy.exists_leaf
      have hchain := Token.Lexed.apart hp
      simp only [tokens_node, tokens_leaf, tokensAll_nil, tokensAll_cons, List.map_cons,
        List.append_nil, List.cons_append, List.nil_append, List.isChain_cons_cons] at hchain
      rw [List.mem_singleton] at ha hb
      exact absurd ⟨ha.trans hb.symm, by simp [hb, Kind.isRun]⟩ hchain.1

theorem IsBackQuoted.not_plain {t : Tree} (h : IsBackQuoted t) : ¬Plain t := by
  intro hp
  obtain ⟨hbefore, ha, hi, hb, hafter⟩ := h
  obtain ⟨a, rfl, hk⟩ := ha.exists_leaf
  rw [List.mem_singleton] at hk
  exact hp.quoted a (mem_tokensAll (x := .leaf a) (by simp) (List.mem_singleton.mpr rfl)) hk

theorem IsLeaf.eq_leaf {ks : List Kind} {x : Tree} (h : IsLeaf ks x) : ∃ a, x = .leaf a := by
  obtain ⟨a, ha, _⟩ := h.exists_leaf
  exact ⟨a, ha⟩

theorem IsUnquoted.leaves {t : Tree} (h : IsUnquoted t) :
    ∃ kids, t = .node .unquoted kids ∧ ∀ x ∈ kids, ∃ a, x = .leaf a := by
  obtain ⟨ha⟩ := h
  refine ⟨_, rfl, ?_⟩
  intro x hx
  rw [List.mem_singleton.mp hx]
  exact ha.eq_leaf

theorem IsSingleQuoted.leaves {t : Tree} (h : IsSingleQuoted t) :
    ∃ kids, t = .node .singleQuoted kids ∧ ∀ x ∈ kids, ∃ a, x = .leaf a := by
  obtain ⟨ha, hi, hb⟩ := h
  refine ⟨_, rfl, ?_⟩
  intro x hx
  rcases List.mem_cons.mp hx with rfl | hx
  · exact ha.eq_leaf
  · rcases List.mem_append.mp hx with hx | hx
    · exact (hi x hx).eq_leaf
    · rw [List.mem_singleton.mp hx]
      exact hb.eq_leaf

/-- Without tokens for back quotes, there are only leaves between double quotes. -/
theorem IsDoubleQuoted.leaves {t : Tree} (h : IsDoubleQuoted t) (hp : Plain t) :
    ∃ kids, t = .node .doubleQuoted kids ∧ ∀ x ∈ kids, ∃ a, x = .leaf a := by
  obtain ⟨hbefore, ha, hi, hb, hafter⟩ := h
  refine ⟨_, rfl, ?_⟩
  intro x hx
  have hpx := hp.kid hx
  simp only [List.mem_append, List.mem_cons] at hx
  rcases hx with hx | rfl | hx | rfl | hx
  · exact (hbefore x hx).eq_leaf
  · exact ha.eq_leaf
  · rcases hi x hx with hback | hleaf
    · exact absurd hpx hback.not_plain
    · exact hleaf.eq_leaf
  · exact hb.eq_leaf
  · exact (hafter x hx).eq_leaf

/-- Leaves show their tokens and nothing else. -/
theorem mem_leaf_of_mem_textAll {kids : List Tree} (h : ∀ x ∈ kids, ∃ a, x = .leaf a)
    {c : Char} (hc : c ∈ textAll kids) : ∃ a, Tree.leaf a ∈ kids ∧ c ∈ a.text := by
  induction kids with
  | nil => simp at hc
  | cons x xs ih =>
      obtain ⟨a, rfl⟩ := h x (by simp)
      rcases List.mem_append.mp hc with hc | hc
      · exact ⟨a, by simp, hc⟩
      · obtain ⟨b, hb, hcb⟩ := ih (fun y hy => h y (by simp [hy])) hc
        exact ⟨b, by simp [hb], hcb⟩

/-- Without tokens for back quotes, double quotes hold no back quote. -/
theorem IsDoubleQuoted.backQuote_notMem {t : Tree} (h : IsDoubleQuoted t) (hp : Plain t) :
    Text.backQuote ∉ t.text := by
  obtain ⟨kids, rfl, hleaves⟩ := h.leaves hp
  intro hc
  obtain ⟨k, hk, hck⟩ := mem_leaf_of_mem_textAll hleaves (by simpa using hc)
  have hkind := (hp.kid hk).scanned.ofChar_leaf hck
  have hback : Kind.ofChar Text.backQuote = .backMark := Kind.ofChar_eq_backMark_iff.mpr rfl
  exact hp.quoted k (mem_tokensAll hk (List.mem_singleton.mpr rfl)) (hkind.symm.trans hback)

/-- A text whose first character stands in no output operator. -/
def StartsBeside (t : Text) : Prop := ∃ c rest, t = c :: rest ∧ Kind.ofChar c ≠ .greater

theorem startsBeside_leaf {ks : List Kind} {x : Tree} (h : IsLeaf ks x) (hp : Scanned x)
    (hk : .greater ∉ ks) (more : Text) : StartsBeside (x.text ++ more) := by
  obtain ⟨a, rfl, ha⟩ := h.exists_leaf
  cases ht : a.text with
  | nil => exact absurd ht hp.leaf_nonempty
  | cons c rest =>
      refine ⟨c, rest ++ more, by simp [ht], ?_⟩
      rw [hp.ofChar_leaf (by simp [ht])]
      intro hg
      exact hk (hg ▸ ha)

theorem startsBeside_node {ks : List Kind} {r : Rule} {x : Tree} {kids : List Tree}
    (h : IsLeaf ks x) (hp : Scanned (.node r (x :: kids))) (hk : .greater ∉ ks) (more : Text) :
    StartsBeside ((Tree.node r (x :: kids)).text ++ more) := by
  rw [text_node, textAll_cons, List.append_assoc]
  exact startsBeside_leaf h (hp.kid (by simp)) hk _

/-- Words may stand before the mark of a quotation. -/
theorem startsBeside_quotation {ks : List Kind} {r : Rule} {before kids : List Tree} {a : Tree}
    (hbefore : ∀ x ∈ before, IsLeaf [.word] x) (ha : IsLeaf ks a)
    (hp : Scanned (.node r (before ++ a :: kids))) (hk : .greater ∉ ks) (more : Text) :
    StartsBeside ((Tree.node r (before ++ a :: kids)).text ++ more) := by
  cases before with
  | nil => exact startsBeside_node ha hp hk more
  | cons w ws => exact startsBeside_node (hbefore w (by simp)) hp (by decide) more

theorem IsPiece.startsBeside {t : Tree} (h : IsPiece t) (hp : Scanned t) (more : Text) :
    StartsBeside (t.text ++ more) := by
  rcases h with h | h
  · have hquoted : ∀ x : Tree, StartsBeside (x.text ++ more) →
        StartsBeside (text (.node .quoted [x]) ++ more) := by
      intro x hx
      simpa using hx
    cases h with
    | single h =>
        have hpk := hp.kid (List.mem_singleton.mpr rfl)
        obtain ⟨ha, hi, hb⟩ := h
        exact hquoted _ (startsBeside_node ha hpk (by decide) more)
    | double h =>
        have hpk := hp.kid (List.mem_singleton.mpr rfl)
        obtain ⟨hbefore, ha, hi, hb, hafter⟩ := h
        exact hquoted _ (startsBeside_quotation hbefore ha hpk (by decide) more)
    | back h =>
        have hpk := hp.kid (List.mem_singleton.mpr rfl)
        obtain ⟨hbefore, ha, hi, hb, hafter⟩ := h
        exact hquoted _ (startsBeside_quotation hbefore ha hpk (by decide) more)
  · obtain ⟨ha⟩ := h
    exact startsBeside_node ha hp (by decide) more

theorem IsArgument.startsBeside {t : Tree} (h : IsArgument t) (hp : Scanned t) :
    StartsBeside t.text := by
  obtain ⟨hps⟩ := h
  exact (hps _ (by simp)).startsBeside (hp.kid (by simp)) _

theorem IsArgument.exists_node {t : Tree} (h : IsArgument t) :
    ∃ kids, t = .node .argument kids := by
  obtain ⟨hps⟩ := h
  exact ⟨_, rfl⟩

/-- What comes after the operator of a redirection does not go on with it. -/
theorem startsBeside_after {r : Rule} {kids gap : List Tree} {x : Tree}
    (hp : Scanned (.node r kids)) (hk : ∀ y ∈ gap ++ [x], y ∈ kids)
    (hg : AtMostOne (IsLeaf [.blank]) gap) (hx : IsArgument x) :
    StartsBeside (textAll (gap ++ [x])) := by
  rcases hg with rfl | ⟨g, hg, rfl⟩
  · have hxs := hx.startsBeside (hp.kid (hk x (by simp)))
    simpa using hxs
  · have hgp := hp.kid (hk g (by simp))
    simpa using startsBeside_leaf hg hgp (by decide) (textAll [x])

/-- Neither gaps nor arguments count as operators. -/
theorem filter_operators {gap : List Tree} {x : Tree}
    (hg : AtMostOne (IsLeaf [.blank]) gap) (hx : IsArgument x) :
    (gap ++ [x]).filter isOperator = [] := by
  obtain ⟨kids, rfl⟩ := hx.exists_node
  rcases hg with rfl | ⟨g, hg, rfl⟩
  · simp [isOperator, kind?]
  · obtain ⟨a, rfl, ha⟩ := hg.exists_leaf
    rw [List.mem_singleton] at ha
    simp [isOperator, kind?, ha]

/-- The sign with which a redirection's text starts is its operator. -/
theorem IsRedirection.redirectionSign_eq {t : Tree} (h : IsRedirection t) (hp : Scanned t) :
    Drafting.redirectionSign t.text = .ok t.sign ∧
      t.sign ∈ operators := by
  cases h with
  | @input a x gap ha hg hx =>
      obtain ⟨a, rfl, hk⟩ := ha.exists_leaf
      rw [List.mem_singleton] at hk
      have hat : a.text = ['<'] := (hp.kid (by simp)).mark (by simp [hk, Kind.isRun])
        (fun d hd => Kind.eq_less_of_ofChar (hd.trans hk))
      have hf := filter_operators hg hx
      have hs : sign (.node .redirection (.leaf a :: (gap ++ [x]))) = ['<'] := by
        have ho : isOperator (.leaf a) = true := by simp [isOperator, kind?, hk]
        simp only [sign, kids, List.filter_cons_of_pos ho, hf]
        simp [hat]
      rw [hs]
      simp [operators, hat, Drafting.redirectionSign]
  | @output a x more gap ha hm hg hx =>
      obtain ⟨a, rfl, hk⟩ := ha.exists_leaf
      rw [List.mem_singleton] at hk
      have hat : a.text = ['>'] := (hp.kid (by simp)).mark (by simp [hk, Kind.isRun])
        (fun d hd => Kind.eq_greater_of_ofChar (hd.trans hk))
      have hf := filter_operators hg hx
      have ho : isOperator (.leaf a) = true := by simp [isOperator, kind?, hk]
      rcases hm with rfl | ⟨b, hb, rfl⟩
      · obtain ⟨c, rest, hc, hne⟩ := startsBeside_after hp (by simp_all) hg hx
        have hs : sign (.node .redirection (.leaf a :: ([] ++ gap ++ [x]))) = ['>'] := by
          simp only [sign, kids, List.nil_append, List.filter_cons_of_pos ho, hf]
          simp [hat]
        rw [hs]
        refine ⟨?_, by decide⟩
        have hcg : c ≠ '>' := fun h => hne (by rw [h]; decide)
        simp only [text_node, text_leaf, textAll_cons, List.nil_append, hat, hc]
        simp [Drafting.redirectionSign, hcg]
      · obtain ⟨b, rfl, hkb⟩ := hb.exists_leaf
        rw [List.mem_singleton] at hkb
        have hbt : b.text = ['>'] := (hp.kid (by simp)).mark (by simp [hkb, Kind.isRun])
          (fun d hd => Kind.eq_greater_of_ofChar (hd.trans hkb))
        have hs : sign (.node .redirection (.leaf a :: ([.leaf b] ++ gap ++ [x]))) =
            ['>', '>'] := by
          have hob : isOperator (.leaf b) = true := by simp [isOperator, kind?, hkb]
          simp only [sign, kids, List.cons_append, List.nil_append, List.filter_cons_of_pos ho,
            List.filter_cons_of_pos hob, hf]
          simp [hat, hbt]
        rw [hs]
        simp [operators, hat, hbt, Drafting.redirectionSign]

end Tree

/-- Notes from inside a call: a redirection has an operator, and an argument that is a name is one
word. -/
inductive Orderly : List Note → Prop
  | nil : Orderly []
  | redirection {s : Text} {notes : List Note} (hs : s ∈ Tree.operators) (h : Orderly notes) :
      Orderly (.redirection s :: notes)
  | word (t : Text) {notes : List Note} (h : Orderly notes) : Orderly (.word t :: notes)
  | argument {t : Text} {notes : List Note} (ht : Application.isName t = false)
      (h : Orderly notes) : Orderly (.argument t :: notes)
  | name {t : Text} {notes : List Note} (ht : Application.isName t = true) (h : Orderly notes) :
      Orderly (.argument t :: .word t :: notes)

theorem Orderly.append {xs ys : List Note} (hx : Orderly xs) (hy : Orderly ys) :
    Orderly (xs ++ ys) := by
  induction hx with
  | nil => exact hy
  | redirection hs _ ih => exact .redirection hs ih
  | word t _ ih => exact .word t ih
  | argument ht _ ih => exact .argument ht ih
  | name ht _ ih => exact .name ht ih

theorem orderly_words (ws : List Text) : Orderly (ws.map Note.word) := by
  induction ws with
  | nil => exact .nil
  | cons w ws ih => exact .word w ih

/-- Notes from inside a call that has certain arguments and redirections. -/
structure Noted (notes : List Note) (arguments redirections : List Tree) : Prop where
  orderly : Orderly notes
  arguments : notes.filterMap Note.argument? = arguments.map Tree.text
  redirections : notes.filterMap Note.redirection? = redirections.map Tree.sign

theorem noted_nil : Noted [] [] [] := ⟨.nil, rfl, rfl⟩

theorem Noted.append {xs ys : List Note} {as bs rs ss : List Tree} (hx : Noted xs as rs)
    (hy : Noted ys bs ss) : Noted (xs ++ ys) (as ++ bs) (rs ++ ss) where
  orderly := hx.orderly.append hy.orderly
  arguments := by rw [List.filterMap_append, hx.arguments, hy.arguments, List.map_append]
  redirections := by
    rw [List.filterMap_append, hx.redirections, hy.redirections, List.map_append]

namespace Tree

theorem noted_all {kids : List Tree} (h : ∀ x ∈ kids, Noted x.notes x.arguments x.redirections) :
    Noted (notesAll kids) (outermostAll [.argument] kids) (outermostAll [.redirection] kids) := by
  induction kids with
  | nil => exact noted_nil
  | cons x xs ih => exact (h x (by simp)).append (ih fun y hy => h y (by simp [hy]))

theorem IsLeaf.noted {ks : List Kind} {x : Tree} (h : IsLeaf ks x) :
    Noted x.notes x.arguments x.redirections := by
  obtain ⟨hk⟩ := h
  exact noted_nil

theorem outermostAll_eq_nil {rs : List Rule} {kids : List Tree}
    (h : ∀ x ∈ kids, outermost rs x = []) : outermostAll rs kids = [] := by
  induction kids with
  | nil => rfl
  | cons x xs ih =>
      rw [outermostAll_cons, h x (by simp), ih fun y hy => h y (by simp [hy])]
      rfl

theorem IsLeaf.outermost_eq {ks : List Kind} {x : Tree} (h : IsLeaf ks x) (rs : List Rule) :
    outermost rs x = [] := by
  obtain ⟨hk⟩ := h
  rfl

/-- The rules of pieces and of what they consist of. -/
def pieceRules : List Rule := [.quoted, .unquoted, .singleQuoted, .doubleQuoted]

theorem IsPiece.exists_word {p : Tree} (h : IsPiece p) (hp : Plain p) :
    ∃ w, p.notes = [.word w] := by
  rcases h with h | h
  · cases h with
    | single h =>
        obtain ⟨kids, rfl, _⟩ := h.leaves
        exact ⟨textAll kids, rfl⟩
    | double h =>
        obtain ⟨kids, rfl, _⟩ := h.leaves (hp.kid (List.mem_singleton.mpr rfl))
        exact ⟨(textAll kids).filter (· ≠ Text.doubleQuote), rfl⟩
    | back h => exact absurd (hp.kid (List.mem_singleton.mpr rfl)) h.not_plain
  · obtain ⟨kids, rfl, _⟩ := h.leaves
    exact ⟨textAll kids, rfl⟩

theorem outermost_eq_nil {rs : List Rule} {r : Rule} {kids : List Tree} (hr : r ∉ rs)
    (h : ∀ x ∈ kids, outermost rs x = []) : outermost rs (.node r kids) = [] := by
  rw [outermost_node, if_neg hr]
  exact outermostAll_eq_nil h

theorem IsBackQuoted.outermost_eq {t : Tree} (h : IsBackQuoted t) {rs : List Rule}
    (hr : .backQuoted ∉ rs) : t.outermost rs = [] := by
  obtain ⟨hw, ha, hi, hb, hv⟩ := h
  refine outermost_eq_nil hr ?_
  simp only [List.mem_append, List.mem_cons]
  rintro x (hx | rfl | hx | rfl | hx)
  · exact (hw x hx).outermost_eq rs
  · exact ha.outermost_eq rs
  · exact (hi x hx).outermost_eq rs
  · exact hb.outermost_eq rs
  · exact (hv x hx).outermost_eq rs

theorem IsDoubleQuoted.outermost_eq {t : Tree} (h : IsDoubleQuoted t) {rs : List Rule}
    (hr : .doubleQuoted ∉ rs) (hback : .backQuoted ∉ rs) : t.outermost rs = [] := by
  obtain ⟨hw, ha, hi, hb, hv⟩ := h
  refine outermost_eq_nil hr ?_
  simp only [List.mem_append, List.mem_cons]
  rintro x (hx | rfl | hx | rfl | hx)
  · exact (hw x hx).outermost_eq rs
  · exact ha.outermost_eq rs
  · rcases hi x hx with h | h
    · exact h.outermost_eq hback
    · exact h.outermost_eq rs
  · exact hb.outermost_eq rs
  · exact (hv x hx).outermost_eq rs

/-- There are no nodes of other rules in a piece. -/
theorem IsPiece.outermost_eq {p : Tree} (h : IsPiece p) {rs : List Rule}
    (hrs : ∀ r ∈ .backQuoted :: pieceRules, r ∉ rs) : p.outermost rs = [] := by
  have hleaves : ∀ (r : Rule) (kids : List Tree), r ∈ pieceRules →
      (∀ x ∈ kids, ∃ a, x = .leaf a) → outermost rs (.node r kids) = [] := by
    intro r kids hr hk
    refine outermost_eq_nil (hrs r (by simp [hr])) fun x hx => ?_
    obtain ⟨a, rfl⟩ := hk x hx
    rfl
  have hquoted : ∀ t : Tree, outermost rs t = [] → outermost rs (.node .quoted [t]) = [] := by
    intro t ht
    exact outermost_eq_nil (hrs .quoted (by decide)) (by simpa using ht)
  rcases h with h | h
  · cases h with
    | single h =>
        obtain ⟨kids, rfl, hk⟩ := h.leaves
        exact hquoted _ (hleaves _ kids (by decide) hk)
    | double h =>
        exact hquoted _ (h.outermost_eq (hrs .doubleQuoted (by decide)) (hrs .backQuoted (by decide)))
    | back h => exact hquoted _ (h.outermost_eq (hrs .backQuoted (by decide)))
  · obtain ⟨kids, rfl, hk⟩ := h.leaves
    exact hleaves _ kids (by decide) hk

theorem exists_words {ps : List Tree} (h : ∀ p ∈ ps, IsPiece p) (hp : ∀ p ∈ ps, Plain p) :
    ∃ ws : List Text, notesAll ps = ws.map Note.word := by
  induction ps with
  | nil => exact ⟨[], rfl⟩
  | cons p ps ih =>
      obtain ⟨w, hw⟩ := (h p (by simp)).exists_word (hp p (by simp))
      obtain ⟨ws, hws⟩ := ih (fun q hq => h q (by simp [hq])) (fun q hq => hp q (by simp [hq]))
      exact ⟨w :: ws, by rw [notesAll_cons, hw, hws]; rfl⟩

/-- There are no nodes of other rules in an argument. -/
theorem IsArgument.outermost_eq {t : Tree} (h : IsArgument t) {rs : List Rule}
    (hrs : ∀ r ∈ .argument :: .backQuoted :: pieceRules, r ∉ rs) : t.outermost rs = [] := by
  obtain ⟨hps⟩ := h
  refine outermost_eq_nil (hrs .argument (by simp)) fun q hq => ?_
  exact (hps q hq).outermost_eq fun r hr => hrs r (List.mem_cons_of_mem _ hr)

theorem IsArgument.notes_of_isName {t : Tree} (h : IsArgument t) (hp : Plain t)
    (hn : Application.isName t.text = true) : t.notes = [.argument t.text, .word t.text] := by
  obtain ⟨a, rfl, _⟩ := h.eq_of_isName hp.scanned hn
  simp

theorem IsArgument.noted {t : Tree} (h : IsArgument t) (hp : Plain t) :
    Noted t.notes t.arguments t.redirections := by
  have hname := h.notes_of_isName hp
  have hred : t.redirections = [] := h.outermost_eq (by decide)
  obtain ⟨hps⟩ := h
  next p ps =>
  have hplain : ∀ q ∈ p :: ps, Plain q := fun q hq => hp.kid hq
  obtain ⟨ws, hws⟩ := exists_words hps hplain
  have hnotes : notes (.node .argument (p :: ps)) =
      .argument (text (.node .argument (p :: ps))) :: ws.map Note.word := by
    rw [notes_argument, hws, text_node]
  have ha : arguments (.node .argument (p :: ps)) = [.node .argument (p :: ps)] := rfl
  have hwa : (ws.map Note.word).filterMap Note.argument? = [] := by
    simp [List.filterMap_map, Function.comp_def, Note.argument?]
  rw [ha, hred]
  refine ⟨?_, ?_, ?_⟩
  · by_cases hn : Application.isName (text (.node .argument (p :: ps))) = true
    · rw [hname hn]
      exact .name hn .nil
    · rw [hnotes]
      exact .argument (by simpa using hn) (orderly_words ws)
  · simp [hnotes, Note.argument?, hwa]
  · simp [hnotes, Note.redirection?]

theorem AtMostOne.of_mem {p : Tree → Prop} {ts : List Tree} (h : AtMostOne p ts) {x : Tree}
    (hx : x ∈ ts) : p x := by
  rcases h with rfl | ⟨t, ht, rfl⟩
  · cases hx
  · rw [List.mem_singleton.mp hx]
    exact ht

theorem IsRedirection.kids_cases {t : Tree} (h : IsRedirection t) :
    ∃ kids, t = .node .redirection kids ∧ ∀ x ∈ kids, (∃ ks, IsLeaf ks x) ∨ IsArgument x := by
  cases h with
  | @input a x gap ha hg hx =>
      refine ⟨_, rfl, ?_⟩
      intro y hy
      simp only [List.mem_cons, List.mem_append, List.not_mem_nil, or_false] at hy
      rcases hy with rfl | hy | rfl
      · exact Or.inl ⟨_, ha⟩
      · exact Or.inl ⟨_, hg.of_mem hy⟩
      · exact Or.inr hx
  | @output a x more gap ha hm hg hx =>
      refine ⟨_, rfl, ?_⟩
      intro y hy
      simp only [List.mem_cons, List.mem_append, List.not_mem_nil, or_false] at hy
      rcases hy with rfl | (hy | hy) | rfl
      · exact Or.inl ⟨_, ha⟩
      · exact Or.inl ⟨_, hm.of_mem hy⟩
      · exact Or.inl ⟨_, hg.of_mem hy⟩
      · exact Or.inr hx

theorem IsRedirection.noted {t : Tree} (h : IsRedirection t) (hp : Plain t) :
    Noted t.notes t.arguments t.redirections := by
  have hsign := (h.redirectionSign_eq hp.scanned).2
  obtain ⟨kids, rfl, hk⟩ := h.kids_cases
  have hkids : Noted (notesAll kids) (outermostAll [.argument] kids)
      (outermostAll [.redirection] kids) := by
    apply noted_all
    intro x hx
    rcases hk x hx with ⟨ks, hl⟩ | ha
    · exact hl.noted
    · exact ha.noted (hp.kid hx)
  have hnone : outermostAll [.redirection] kids = [] := by
    apply outermostAll_eq_nil
    intro x hx
    rcases hk x hx with ⟨ks, hl⟩ | ha
    · exact hl.outermost_eq _
    · exact ha.outermost_eq (by decide)
  rw [hnone] at hkids
  have hr : redirections (.node .redirection kids) = [.node .redirection kids] := rfl
  have ha : arguments (.node .redirection kids) = outermostAll [.argument] kids := rfl
  rw [notes_redirection, hr, ha]
  refine ⟨.redirection hsign hkids.orderly, ?_, ?_⟩
  · rw [List.filterMap_cons_none rfl, hkids.arguments]
  · simp [Note.redirection?, hkids.redirections]

theorem IsAtom.noted {t : Tree} (h : IsAtom t) (hp : Plain t) :
    Noted t.notes t.arguments t.redirections := by
  cases h with
  | redirection h =>
      simpa [arguments, redirections, outermost_node] using
        h.noted (hp.kid (List.mem_singleton.mpr rfl))
  | argument h =>
      simpa [arguments, redirections, outermost_node] using
        h.noted (hp.kid (List.mem_singleton.mpr rfl))

theorem mem_paired {ps : List (Tree × Tree)} {x : Tree} (h : x ∈ paired ps) :
    ∃ p ∈ ps, x = p.1 ∨ x = p.2 := by
  obtain ⟨p, hp, hx⟩ := List.mem_flatMap.mp h
  exact ⟨p, hp, by simpa using hx⟩

end Tree

end CommandShell
