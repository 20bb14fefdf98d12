import CommandShell.Proofs.Derivation
import Mathlib.Computability.RegularExpressions

/-! # The language of the grammar

The rules as they are written, each with a regular expression over tokens and rules as its right
side, and the trees that they derive. Sequences and pipes are written with the rule itself on the
left, and a sequence with the rule on both sides, so that one text can have several trees. -/

namespace CommandShell

open Computability

namespace Grammar

/-- What the right side of a rule is made of. -/
abbrev Expression := RegularExpression (Symbol Kind Rule)

/-- A token of the kind. -/
def one (k : Kind) : Expression := .char (.terminal k)

/-- A text of the rule. -/
def sub (r : Rule) : Expression := .char (.nonterminal r)

def maybe (e : Expression) : Expression := 1 + e

/-- A token of one of the kinds. -/
def someOf (ks : List Kind) : Expression := (ks.map one).foldr (· + ·) 0

def rightSide : Rule → Expression
  | .line => sub .command + one .finish
  | .command => sub .pipe + sub .command * (one .semicolon * sub .command) + sub .call
  | .pipe => sub .call * (one .bar * sub .call) + sub .pipe * (one .bar * sub .call)
  | .call =>
      maybe (someOf [.blank, .lineBreak]) *
        ((sub .redirection * someOf [.blank, .lineBreak]).star *
          (sub .argument *
            ((someOf [.blank, .lineBreak] * sub .atom).star *
              maybe (someOf [.blank, .lineBreak]))))
  | .atom => sub .redirection + sub .argument
  | .argument => (sub .quoted + sub .unquoted) * (sub .quoted + sub .unquoted).star
  | .redirection =>
      one .less * (maybe (one .blank) * sub .argument) +
        maybe (one .greater) * (one .greater * (maybe (one .blank) * sub .argument))
  | .unquoted => one .word
  | .quoted => sub .singleQuoted + sub .doubleQuoted + sub .backQuoted
  | .singleQuoted =>
      one .singleMark *
        ((someOf
          [.word, .semicolon, .bar, .less, .greater, .doubleMark, .backMark, .blank]).star *
          one .singleMark)
  | .backQuoted =>
      (one .word).star *
        (one .backMark *
          ((someOf
            [.word, .semicolon, .bar, .less, .greater, .doubleMark, .singleMark, .blank]).star *
            (one .backMark * (one .word).star)))
  | .doubleQuoted =>
      (one .word).star *
        (one .doubleMark *
          ((sub .backQuoted + someOf
            [.word, .semicolon, .bar, .less, .greater, .singleMark, .blank]).star *
            (one .doubleMark * (one .word).star)))

end Grammar

namespace Tree

open Grammar

/-- The symbol at the root of a tree. -/
def root : Tree → Symbol Kind Rule
  | .node r _ => .nonterminal r
  | .leaf t | .skipped t => .terminal t.kind
  | .missing k => .terminal k

/-- A tree of the grammar: every leaf is a token that was read and fits, and the children of every
node are what the right side of its rule says. -/
inductive IsDerivation : Tree → Prop
  | leaf (t : Token) : IsDerivation (.leaf t)
  | node {r : Rule} {kids : List Tree} (hr : kids.map root ∈ (rightSide r).matches')
      (hk : ∀ t ∈ kids, IsDerivation t) : IsDerivation (.node r kids)

/-- The kinds of the tokens in a tree. -/
def kinds (t : Tree) : List Kind := t.tokens.map Token.kind

/-- Two commands with a `;` between them. -/
def IsSequence (t : Tree) : Prop := ∃ a s b, t = .node .command [a, s, b]

/-- What follows a `;` is no sequence and what follows a `|` is a call, everywhere in the tree. -/
inductive LeftNested : Tree → Prop
  | leaf (t : Token) : LeftNested (.leaf t)
  | node {r : Rule} {kids : List Tree}
      (hs : ∀ a s b, r = .command → kids = [a, s, b] → ¬ b.IsSequence)
      (hp : ∀ a s b, r = .pipe → kids = [a, s, b] → b.root = .nonterminal .call)
      (hk : ∀ t ∈ kids, LeftNested t) : LeftNested (.node r kids)

end Tree

namespace Grammar

/-- The rule derives the kinds: they are those of one of its trees. -/
def Derives (r : Rule) (ks : List Kind) : Prop :=
  ∃ t : Tree, t.IsDerivation ∧ t.root = .nonterminal r ∧ t.kinds = ks

end Grammar

namespace Tree

open Grammar

/-- A tree of the grammar in which sequences and pipes nest to the left. -/
structure Neat (t : Tree) : Prop where
  derivation : t.IsDerivation
  nested : t.LeftNested

/-- Neat trees with roots as the expression says. -/
structure Fits (e : Expression) (ts : List Tree) : Prop where
  roots : ts.map root ∈ e.matches'
  neat : ∀ t ∈ ts, t.Neat

section Fits

variable {d e : Expression} {ts us : List Tree} {t : Tree}

theorem fits_one {k : Kind} (hr : t.root = .terminal k) (h : t.Neat) : Fits (one k) [t] where
  roots := by
    rw [List.map_singleton, hr]
    rfl
  neat := by simpa using h

theorem fits_sub {r : Rule} (hr : t.root = .nonterminal r) (h : t.Neat) : Fits (sub r) [t] where
  roots := by
    rw [List.map_singleton, hr]
    rfl
  neat := by simpa using h

theorem Fits.mul (hd : Fits d ts) (he : Fits e us) : Fits (d * e) (ts ++ us) where
  roots := by
    rw [List.map_append]
    exact Language.append_mem_mul hd.roots he.roots
  neat := fun t ht => (List.mem_append.mp ht).elim (hd.neat t) (he.neat t)

theorem Fits.left (hd : Fits d ts) : Fits (d + e) ts := ⟨Or.inl hd.roots, hd.neat⟩

theorem Fits.right (he : Fits e ts) : Fits (d + e) ts := ⟨Or.inr he.roots, he.neat⟩

theorem fits_maybe_nil : Fits (maybe e) [] := ⟨Or.inl rfl, by simp⟩

theorem fits_star {tss : List (List Tree)} (h : ∀ us ∈ tss, Fits e us) :
    Fits e.star tss.flatten where
  roots := by
    rw [List.map_flatten]
    apply Language.join_mem_kstar
    intro ys hy
    obtain ⟨us, hus, rfl⟩ := List.mem_map.mp hy
    exact (h us hus).roots
  neat := by
    intro t ht
    obtain ⟨us, hus, ht⟩ := List.mem_flatten.mp ht
    exact (h us hus).neat t ht

/-- Rounds of one tree each. -/
theorem fits_star_singles (h : ∀ t ∈ ts, Fits e [t]) : Fits e.star ts := by
  have hflat : (ts.map fun t => [t]).flatten = ts := by
    rw [← List.flatMap_def, List.flatMap_singleton']
  rw [← hflat]
  apply fits_star
  intro us hus
  obtain ⟨t, ht, rfl⟩ := List.mem_map.mp hus
  exact h t ht

/-- Rounds of two trees each. -/
theorem fits_star_pairs {ps : List (Tree × Tree)} (h : ∀ p ∈ ps, Fits e [p.1, p.2]) :
    Fits e.star (paired ps) := by
  rw [paired, List.flatMap_def]
  apply fits_star
  intro us hus
  obtain ⟨p, hp, rfl⟩ := List.mem_map.mp hus
  exact h p hp

theorem fits_someOf {ks : List Kind} {k : Kind} (hk : k ∈ ks) (hr : t.root = .terminal k)
    (h : t.Neat) : Fits (someOf ks) [t] := by
  induction ks with
  | nil => cases hk
  | cons l ls ih =>
      rcases List.mem_cons.mp hk with rfl | hk
      · exact Fits.left (fits_one hr h)
      · exact Fits.right (ih hk)

theorem IsLeaf.fits_one {k : Kind} (h : IsLeaf [k] t) : Fits (one k) [t] := by
  obtain ⟨hk⟩ := h
  exact Tree.fits_one (congrArg _ (List.mem_singleton.mp hk)) ⟨.leaf _, .leaf _⟩

theorem IsLeaf.fits_someOf {ks ls : List Kind} (h : IsLeaf ks t) (hs : ks ⊆ ls) :
    Fits (someOf ls) [t] := by
  obtain ⟨hk⟩ := h
  exact Tree.fits_someOf (hs hk) rfl ⟨.leaf _, .leaf _⟩

theorem AtMostOne.fits {p : Tree → Prop} (h : AtMostOne p ts) (hp : ∀ t, p t → Fits e [t]) :
    Fits (maybe e) ts := by
  rcases h with rfl | ⟨t, ht, rfl⟩
  · exact fits_maybe_nil
  · exact (hp t ht).right

end Fits

/-! ### Trees of the rules are neat derivations -/

section Rules

variable {t : Tree}

theorem neat_node {r : Rule} {kids : List Tree} (h : Fits (rightSide r) kids) (hc : r ≠ .command)
    (hp : r ≠ .pipe) : Neat (.node r kids) where
  derivation := .node h.roots fun t ht => (h.neat t ht).derivation
  nested := .node (fun _ _ _ h => absurd h hc) (fun _ _ _ h => absurd h hp)
    fun t ht => (h.neat t ht).nested

theorem IsUnquoted.fits (h : IsUnquoted t) : Fits (sub .unquoted) [t] := by
  obtain ⟨ha⟩ := h
  exact fits_sub rfl (neat_node ha.fits_one (by decide) (by decide))

theorem IsSingleQuoted.fits (h : IsSingleQuoted t) : Fits (sub .singleQuoted) [t] := by
  obtain ⟨ha, hi, hb⟩ := h
  refine fits_sub rfl (neat_node (ha.fits_one.mul (.mul ?_ hb.fits_one)) (by decide) (by decide))
  exact fits_star_singles fun x hx => (hi x hx).fits_someOf (by decide)

theorem IsBackQuoted.fits (h : IsBackQuoted t) : Fits (sub .backQuoted) [t] := by
  obtain ⟨hw, ha, hi, hb, hv⟩ := h
  have hbefore := fits_star_singles fun x hx => (hw x hx).fits_one
  have hafter := fits_star_singles fun x hx => (hv x hx).fits_one
  refine fits_sub rfl (neat_node (hbefore.mul (ha.fits_one.mul (.mul ?_ (hb.fits_one.mul hafter))))
    (by decide) (by decide))
  exact fits_star_singles fun x hx => (hi x hx).fits_someOf (by decide)

theorem IsDoubleQuoted.fits (h : IsDoubleQuoted t) : Fits (sub .doubleQuoted) [t] := by
  obtain ⟨hw, ha, hi, hb, hv⟩ := h
  have hbefore := fits_star_singles fun x hx => (hw x hx).fits_one
  have hafter := fits_star_singles fun x hx => (hv x hx).fits_one
  refine fits_sub rfl (neat_node (hbefore.mul (ha.fits_one.mul (.mul ?_ (hb.fits_one.mul hafter))))
    (by decide) (by decide))
  refine fits_star_singles fun x hx => ?_
  rcases hi x hx with hback | hleaf
  · exact hback.fits.left
  · exact (hleaf.fits_someOf (by decide)).right

theorem IsQuoted.fits (h : IsQuoted t) : Fits (sub .quoted) [t] := by
  cases h with
  | single h => exact fits_sub rfl (neat_node h.fits.left.left (by decide) (by decide))
  | double h => exact fits_sub rfl (neat_node h.fits.right.left (by decide) (by decide))
  | back h => exact fits_sub rfl (neat_node h.fits.right (by decide) (by decide))

theorem IsArgument.fits (h : IsArgument t) : Fits (sub .argument) [t] := by
  obtain ⟨h⟩ := h
  have hpiece : ∀ {q : Tree}, IsPiece q → Fits (sub .quoted + sub .unquoted) [q] := by
    rintro q (hq | hq)
    · exact hq.fits.left
    · exact hq.fits.right
  refine fits_sub rfl (neat_node (.mul (hpiece (h _ (by simp))) ?_) (by decide) (by decide))
  exact fits_star_singles fun x hx => hpiece (h x (by simp [hx]))

theorem IsRedirection.fits (h : IsRedirection t) : Fits (sub .redirection) [t] := by
  cases h with
  | input ha hg hx =>
      have hgap := hg.fits fun _ h => h.fits_one
      have hread := ha.fits_one.mul (hgap.mul hx.fits)
      exact fits_sub rfl (neat_node hread.left (by decide) (by decide))
  | output ha hm hg hx =>
      have hgap := hg.fits fun _ h => h.fits_one
      -- Of two signs the first is the one that may be left out.
      rcases hm with rfl | ⟨b, hb, rfl⟩
      · have hread := ha.fits_one.mul (hgap.mul hx.fits)
        exact fits_sub rfl (neat_node (fits_maybe_nil.mul hread).right (by decide) (by decide))
      · exact fits_sub rfl (neat_node (.right (.mul (.right ha.fits_one)
          (hb.fits_one.mul (hgap.mul hx.fits)))) (by decide) (by decide))

theorem IsAtom.fits (h : IsAtom t) : Fits (sub .atom) [t] := by
  cases h with
  | redirection h => exact fits_sub rfl (neat_node h.fits.left (by decide) (by decide))
  | argument h => exact fits_sub rfl (neat_node h.fits.right (by decide) (by decide))

theorem IsCall.fits (h : IsCall t) : Fits (sub .call) [t] := by
  obtain ⟨hl, hh, hx, ht, hr⟩ := h
  have hgap : ∀ {g : Tree}, IsGap g → Fits (someOf [.blank, .lineBreak]) [g] :=
    fun hg => hg.fits_someOf fun _ h => h
  have hheads := fits_star_pairs fun p hp => (hh p hp).1.fits.mul (hgap (hh p hp).2)
  have htails := fits_star_pairs fun p hp => (hgap (ht p hp).1).mul (ht p hp).2.fits
  refine fits_sub rfl (neat_node (.mul (hl.fits fun _ => hgap) (hheads.mul
    (hx.fits.mul (htails.mul (hr.fits fun _ => hgap))))) (by decide) (by decide))

theorem neat_pipe {a s b : Tree} (h : Fits (rightSide .pipe) [a, s, b])
    (hb : b.root = .nonterminal .call) : Neat (.node .pipe [a, s, b]) where
  derivation := .node h.roots fun t ht => (h.neat t ht).derivation
  nested := by
    refine .node (fun _ _ _ hr => nomatch hr) ?_ fun t ht => (h.neat t ht).nested
    rintro _ _ _ - hkids
    simp only [List.cons.injEq] at hkids
    rwa [← hkids.2.2.1]

theorem IsCall.root_eq (h : IsCall t) : t.root = .nonterminal .call := by
  cases h
  rfl

theorem IsPipe.fits (h : IsPipe t) : Fits (sub .pipe) [t] := by
  induction h with
  | two ha hs hb =>
      exact fits_sub rfl (neat_pipe (ha.fits.mul (hs.fits_one.mul hb.fits)).left hb.root_eq)
  | more _ hs hb ih =>
      exact fits_sub rfl (neat_pipe (ih.mul (hs.fits_one.mul hb.fits)).right hb.root_eq)

theorem IsItem.fits (h : IsItem t) : Fits (sub .command) [t] := by
  have hone : ∀ {u : Tree},
      Fits (rightSide .command) [u] → Fits (sub .command) [.node .command [u]] := by
    intro u hu
    refine fits_sub rfl ⟨.node hu.roots fun t ht => (hu.neat t ht).derivation, ?_⟩
    exact .node (fun _ _ _ _ h => nomatch h) (fun _ _ _ h => nomatch h)
      fun t ht => (hu.neat t ht).nested
  cases h with
  | pipe h => exact hone h.fits.left.left
  | call h => exact hone h.fits.right

theorem IsItem.not_isSequence (h : IsItem t) : ¬ t.IsSequence := by
  rintro ⟨a, s, b, rfl⟩
  cases h

theorem IsCommand.fits (h : IsCommand t) : Fits (sub .command) [t] := by
  induction h with
  | item h => exact h.fits
  | join _ hs hb ih =>
      have hkids : Fits (rightSide .command) _ := (ih.mul (hs.fits_one.mul hb.fits)).right.left
      refine fits_sub rfl ⟨.node hkids.roots fun t ht => (hkids.neat t ht).derivation, ?_⟩
      refine .node ?_ (fun _ _ _ h => nomatch h) fun t ht => (hkids.neat t ht).nested
      rintro _ _ _ - heq
      simp only [List.cons.injEq] at heq
      rw [← heq.2.2.1]
      exact hb.not_isSequence

end Rules

end Tree

end CommandShell
