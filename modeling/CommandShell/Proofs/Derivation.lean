import CommandShell.Parse.Forecast
import CommandShell.Tree.Basic
import Mathlib.Logic.Relation

/-! # Trees of the grammar

For every rule, the trees that it describes. Sequences and pipes nest to the left: what follows
a `;` is a single pipe or call, and what follows a `|` is a call. -/

namespace CommandShell

namespace Tree

/-- A leaf with a token of one of the kinds. -/
inductive IsLeaf (ks : List Kind) : Tree → Prop
  | leaf {t : Token} (h : t.kind ∈ ks) : IsLeaf ks (.leaf t)

/-- What may stand between the words of a call. -/
abbrev IsGap : Tree → Prop := IsLeaf [.blank, .lineBreak]

/-- No tree, or one of a sort. -/
def AtMostOne (p : Tree → Prop) (ts : List Tree) : Prop := ts = [] ∨ ∃ t, p t ∧ ts = [t]

/-- Pairs of trees, one after another. -/
def paired (ps : List (Tree × Tree)) : List Tree := ps.flatMap fun p => [p.1, p.2]

inductive IsUnquoted : Tree → Prop
  | word {a : Tree} (ha : IsLeaf [.word] a) : IsUnquoted (.node .unquoted [a])

/-- What may stand between single quotes. -/
def singleKinds : List Kind :=
  [.semicolon, .bar, .less, .greater, .doubleMark, .backMark, .blank, .word]

inductive IsSingleQuoted : Tree → Prop
  | quoted {a b : Tree} {inner : List Tree} (ha : IsLeaf [.singleMark] a)
      (hi : ∀ x ∈ inner, IsLeaf singleKinds x) (hb : IsLeaf [.singleMark] b) :
      IsSingleQuoted (.node .singleQuoted (a :: (inner ++ [b])))

/-- What may stand between back quotes. -/
def backKinds : List Kind :=
  [.semicolon, .bar, .less, .greater, .singleMark, .doubleMark, .blank, .word]

inductive IsBackQuoted : Tree → Prop
  | quoted {a b : Tree} {before inner after : List Tree}
      (hw : ∀ x ∈ before, IsLeaf [.word] x) (ha : IsLeaf [.backMark] a)
      (hi : ∀ x ∈ inner, IsLeaf backKinds x) (hb : IsLeaf [.backMark] b)
      (hv : ∀ x ∈ after, IsLeaf [.word] x) :
      IsBackQuoted (.node .backQuoted (before ++ a :: (inner ++ b :: after)))

/-- What may stand between double quotes, texts between back quotes apart. -/
def doubleKinds : List Kind :=
  [.word, .semicolon, .bar, .less, .greater, .singleMark, .blank]

inductive IsDoubleQuoted : Tree → Prop
  | quoted {a b : Tree} {before inner after : List Tree}
      (hw : ∀ x ∈ before, IsLeaf [.word] x) (ha : IsLeaf [.doubleMark] a)
      (hi : ∀ x ∈ inner, IsBackQuoted x ∨ IsLeaf doubleKinds x) (hb : IsLeaf [.doubleMark] b)
      (hv : ∀ x ∈ after, IsLeaf [.word] x) :
      IsDoubleQuoted (.node .doubleQuoted (before ++ a :: (inner ++ b :: after)))

inductive IsQuoted : Tree → Prop
  | single {t : Tree} (h : IsSingleQuoted t) : IsQuoted (.node .quoted [t])
  | double {t : Tree} (h : IsDoubleQuoted t) : IsQuoted (.node .quoted [t])
  | back {t : Tree} (h : IsBackQuoted t) : IsQuoted (.node .quoted [t])

/-- One piece of an argument. -/
def IsPiece (t : Tree) : Prop := IsQuoted t ∨ IsUnquoted t

inductive IsArgument : Tree → Prop
  | pieces {p : Tree} {ps : List Tree} (h : ∀ q ∈ p :: ps, IsPiece q) :
      IsArgument (.node .argument (p :: ps))

inductive IsRedirection : Tree → Prop
  | input {a x : Tree} {gap : List Tree} (ha : IsLeaf [.less] a)
      (hg : AtMostOne (IsLeaf [.blank]) gap) (hx : IsArgument x) :
      IsRedirection (.node .redirection (a :: (gap ++ [x])))
  | output {a x : Tree} {more gap : List Tree} (ha : IsLeaf [.greater] a)
      (hm : AtMostOne (IsLeaf [.greater]) more)
      (hg : AtMostOne (IsLeaf [.blank]) gap) (hx : IsArgument x) :
      IsRedirection (.node .redirection (a :: (more ++ gap ++ [x])))

inductive IsAtom : Tree → Prop
  | redirection {t : Tree} (h : IsRedirection t) : IsAtom (.node .atom [t])
  | argument {t : Tree} (h : IsArgument t) : IsAtom (.node .atom [t])

inductive IsCall : Tree → Prop
  | words {lead trail : List Tree} {heads tails : List (Tree × Tree)} {x : Tree}
      (hl : AtMostOne IsGap lead) (hh : ∀ p ∈ heads, IsRedirection p.1 ∧ IsGap p.2)
      (hx : IsArgument x) (ht : ∀ p ∈ tails, IsGap p.1 ∧ IsAtom p.2)
      (hr : AtMostOne IsGap trail) :
      IsCall (.node .call (lead ++ (paired heads ++ x :: (paired tails ++ trail))))

inductive IsPipe : Tree → Prop
  | two {a s b : Tree} (ha : IsCall a) (hs : IsLeaf [.bar] s) (hb : IsCall b) :
      IsPipe (.node .pipe [a, s, b])
  | more {p s b : Tree} (hp : IsPipe p) (hs : IsLeaf [.bar] s) (hb : IsCall b) :
      IsPipe (.node .pipe [p, s, b])

/-- A command that is just a pipe or a call. -/
inductive IsItem : Tree → Prop
  | pipe {t : Tree} (h : IsPipe t) : IsItem (.node .command [t])
  | call {t : Tree} (h : IsCall t) : IsItem (.node .command [t])

inductive IsCommand : Tree → Prop
  | item {t : Tree} (h : IsItem t) : IsCommand t
  | join {a s b : Tree} (ha : IsCommand a) (hs : IsLeaf [.semicolon] s) (hb : IsItem b) :
      IsCommand (.node .command [a, s, b])

inductive IsLine : Tree → Prop
  | command {t : Tree} (h : IsCommand t) : IsLine (.node .line [t])
  | finish {a : Tree} (ha : IsLeaf [.finish] a) : IsLine (.node .line [a])

/-- The trees of a rule at a binding level. -/
def Shape : Rule → Nat → Tree → Prop
  | .line, _ => IsLine
  | .command, level => fun t => IsCommand t ∧ (Grammar.commandLimit < level → IsItem t)
  | .pipe, _ => IsPipe
  | .call, _ => IsCall
  | .atom, _ => IsAtom
  | .argument, _ => IsArgument
  | .redirection, _ => IsRedirection
  | .unquoted, _ => IsUnquoted
  | .quoted, _ => IsQuoted
  | .singleQuoted, _ => IsSingleQuoted
  | .backQuoted, _ => IsBackQuoted
  | .doubleQuoted, _ => IsDoubleQuoted

end Tree

namespace Grammar

open CommandShell.Tree Relation

mutual
/-- What can become of the children read so far of a node when an item is read. -/
def Grows (r : Rule) (level : Nat) : Item → List Tree → List Tree → Prop
  | .token k => fun kids out => ∃ a, IsLeaf [k] a ∧ out = kids ++ [a]
  | .oneOf ks => fun kids out => ∃ a, IsLeaf ks a ∧ out = kids ++ [a]
  | .rule s l => fun kids out => ∃ t, Shape s l t ∧ out = kids ++ [t]
  | .choice _ alternatives => GrowsSome r level alternatives
  | .optional _ body => fun kids out => out = kids ∨ GrowsAll r level body kids out
  | .loop _ body => ReflTransGen fun kids out =>
      Parse.isOpen level body = true ∧ GrowsAll r level body kids out
  | .again _ body => ReflTransGen fun kids out =>
      Parse.isOpen level body = true ∧ GrowsAll r level body kids out
  | .fold _ => fun kids out => out = [.node r kids]

def GrowsAll (r : Rule) (level : Nat) : List Item → List Tree → List Tree → Prop
  | [] => fun kids out => out = kids
  | x :: xs => fun kids out => ∃ mid, Grows r level x kids mid ∧ GrowsAll r level xs mid out

def GrowsSome (r : Rule) (level : Nat) : List (List Item) → List Tree → List Tree → Prop
  | [] => fun _ _ => False
  | xs :: rest => fun kids out => GrowsAll r level xs kids out ∨ GrowsSome r level rest kids out
end

section Equations

variable {r : Rule} {level : Nat} {kids out : List Tree}

theorem growsAll_nil : GrowsAll r level [] kids out ↔ out = kids := Iff.rfl

theorem growsAll_cons {x : Item} {xs : List Item} :
    GrowsAll r level (x :: xs) kids out ↔
      ∃ mid, Grows r level x kids mid ∧ GrowsAll r level xs mid out := Iff.rfl

theorem growsSome_nil : GrowsSome r level [] kids out ↔ False := Iff.rfl

theorem growsSome_cons {xs : List Item} {rest : List (List Item)} :
    GrowsSome r level (xs :: rest) kids out ↔
      GrowsAll r level xs kids out ∨ GrowsSome r level rest kids out := Iff.rfl

theorem grows_optional {g : Guide} {body : List Item} :
    Grows r level (.optional g body) kids out ↔ out = kids ∨ GrowsAll r level body kids out :=
  Iff.rfl

theorem grows_loop {g : Guide} {body : List Item} :
    Grows r level (.loop g body) kids out ↔
      ReflTransGen (fun kids out => Parse.isOpen level body = true ∧
        GrowsAll r level body kids out) kids out := Iff.rfl

end Equations

theorem growsAll_append {r : Rule} {level : Nat} {xs ys : List Item} {kids out : List Tree} :
    GrowsAll r level (xs ++ ys) kids out ↔
      ∃ mid, GrowsAll r level xs kids mid ∧ GrowsAll r level ys mid out := by
  induction xs generalizing kids with
  | nil => simp [growsAll_nil]
  | cons x xs ih =>
      simp only [List.cons_append, growsAll_cons, ih]
      constructor
      · rintro ⟨mid, hx, end', hxs, hys⟩
        exact ⟨end', ⟨mid, hx, hxs⟩, hys⟩
      · rintro ⟨end', ⟨mid, hx, hxs⟩, hys⟩
        exact ⟨mid, hx, end', hxs, hys⟩

theorem growsSome_iff {r : Rule} {level : Nat} {alternatives : List (List Item)}
    {kids out : List Tree} :
    GrowsSome r level alternatives kids out ↔
      ∃ xs ∈ alternatives, GrowsAll r level xs kids out := by
  induction alternatives with
  | nil => simp [growsSome_nil]
  | cons xs rest ih => simp [growsSome_cons, ih]

/-- Rounds that each add something add a list of such things. -/
theorem exists_rounds {α : Type} {step : List Tree → List Tree → Prop} {p : α → Prop}
    {f : α → List Tree} (hstep : ∀ kids out, step kids out → ∃ a, p a ∧ out = kids ++ f a)
    {kids out : List Tree} (h : ReflTransGen step kids out) :
    ∃ as : List α, (∀ a ∈ as, p a) ∧ out = kids ++ as.flatMap f := by
  induction h with
  | refl => exact ⟨[], by simp, by simp⟩
  | tail _ hs ih =>
      obtain ⟨as, has, rfl⟩ := ih
      obtain ⟨a, ha, rfl⟩ := hstep _ _ hs
      refine ⟨as ++ [a], ?_, by simp⟩
      intro b hb
      rcases List.mem_append.mp hb with hb | hb
      · exact has b hb
      · rw [List.mem_singleton.mp hb]
        exact ha

/-- Rounds that each add one tree. -/
theorem exists_singles {step : List Tree → List Tree → Prop} {p : Tree → Prop}
    (hstep : ∀ kids out, step kids out → ∃ t, p t ∧ out = kids ++ [t])
    {kids out : List Tree} (h : ReflTransGen step kids out) :
    ∃ ts : List Tree, (∀ t ∈ ts, p t) ∧ out = kids ++ ts := by
  obtain ⟨ts, hts, rfl⟩ := exists_rounds (f := fun t => [t]) hstep h
  exact ⟨ts, hts, by simp⟩

/-- Reading the item adds one tree of a sort. -/
def Adds (r : Rule) (level : Nat) (x : Item) (p : Tree → Prop) : Prop :=
  ∀ kids out, Grows r level x kids out → ∃ t, p t ∧ out = kids ++ [t]

theorem adds_token (r : Rule) (level : Nat) (k : Kind) : Adds r level (.token k) (IsLeaf [k]) :=
  fun _ _ h => h

theorem adds_oneOf (r : Rule) (level : Nat) (ks : List Kind) :
    Adds r level (.oneOf ks) (IsLeaf ks) :=
  fun _ _ h => h

theorem adds_rule (r : Rule) (level : Nat) (s : Rule) (l : Nat) :
    Adds r level (.rule s l) (Shape s l) :=
  fun _ _ h => h

theorem adds_piece (r : Rule) (level : Nat) : Adds r level piece IsPiece := by
  intro kids out h
  obtain ⟨xs, hxs, h⟩ := growsSome_iff.mp h
  rw [List.mem_cons, List.mem_singleton] at hxs
  rcases hxs with rfl | rfl
  · obtain ⟨_, ⟨t, ht, rfl⟩, rfl⟩ := h
    exact ⟨t, Or.inl ht, rfl⟩
  · obtain ⟨_, ⟨t, ht, rfl⟩, rfl⟩ := h
    exact ⟨t, Or.inr ht, rfl⟩

/-- An optional item that adds one tree adds at most one. -/
theorem atMostOne_of_grows {r : Rule} {level : Nat} {g : Guide} {x : Item} {p : Tree → Prop}
    (hx : Adds r level x p)
    {kids out : List Tree} (h : Grows r level (.optional g [x]) kids out) :
    ∃ ts, AtMostOne p ts ∧ out = kids ++ ts := by
  rcases grows_optional.mp h with rfl | ⟨mid, hmid, rfl⟩
  · exact ⟨[], Or.inl rfl, by simp⟩
  · obtain ⟨t, ht, rfl⟩ := hx _ _ hmid
    exact ⟨[t], Or.inr ⟨t, ht, rfl⟩, rfl⟩

/-- A loop over one item that adds one tree. -/
theorem singles_of_loop {r : Rule} {level : Nat} {g : Guide} {x : Item} {p : Tree → Prop}
    (hx : Adds r level x p)
    {kids out : List Tree} (h : Grows r level (.loop g [x]) kids out) :
    ∃ ts : List Tree, (∀ t ∈ ts, p t) ∧ out = kids ++ ts := by
  refine exists_singles ?_ (grows_loop.mp h)
  rintro kids out ⟨_, mid, hmid, rfl⟩
  exact hx _ _ hmid

/-- A loop over two items that add one tree each. -/
theorem pairs_of_loop {r : Rule} {level : Nat} {g : Guide} {x y : Item} {p q : Tree → Prop}
    (hx : Adds r level x p) (hy : Adds r level y q)
    {kids out : List Tree} (h : Grows r level (.loop g [x, y]) kids out) :
    ∃ ts : List (Tree × Tree), (∀ t ∈ ts, p t.1 ∧ q t.2) ∧ out = kids ++ paired ts := by
  refine exists_rounds (α := Tree × Tree) ?_ (grows_loop.mp h)
  rintro kids out ⟨_, mid, hmid, end', hend, rfl⟩
  obtain ⟨s, hs, rfl⟩ := hx _ _ hmid
  obtain ⟨t, ht, rfl⟩ := hy _ _ hend
  exact ⟨(s, t), ⟨hs, ht⟩, by simp⟩

theorem isArgument_of_grows {level : Nat} {out : List Tree}
    (h : GrowsAll .argument level (body .argument) [] out) : IsArgument (.node .argument out) := by
  obtain ⟨_, hfirst, _, hmore, rfl⟩ := h
  obtain ⟨p, hp, rfl⟩ := adds_piece _ _ _ _ hfirst
  obtain ⟨ps, hps, rfl⟩ := singles_of_loop (g := .one) (adds_piece _ _) hmore
  refine IsArgument.pieces ?_
  intro q hq
  rcases List.mem_cons.mp hq with rfl | hq
  · exact hp
  · exact hps q hq

theorem isRedirection_of_grows {level : Nat} {out : List Tree}
    (h : GrowsAll .redirection level (body .redirection) [] out) :
    IsRedirection (.node .redirection out) := by
  obtain ⟨_, h, rfl⟩ := h
  obtain ⟨xs, hxs, h⟩ := growsSome_iff.mp h
  rw [List.mem_cons, List.mem_singleton] at hxs
  rcases hxs with rfl | rfl
  · obtain ⟨_, ⟨a, ha, rfl⟩, _, hg, _, ⟨x, hx, rfl⟩, rfl⟩ := h
    obtain ⟨gap, hgap, rfl⟩ := atMostOne_of_grows (adds_token _ _ _) hg
    simpa using IsRedirection.input ha hgap hx
  · obtain ⟨_, hm, _, ⟨b, hb, rfl⟩, _, hg, _, ⟨x, hx, rfl⟩, rfl⟩ := h
    obtain ⟨more, hmore, rfl⟩ := atMostOne_of_grows (adds_token _ _ _) hm
    obtain ⟨gap, hgap, rfl⟩ := atMostOne_of_grows (adds_token _ _ _) hg
    rcases hmore with rfl | ⟨a, ha, rfl⟩
    · simpa using IsRedirection.output hb (Or.inl rfl) hgap hx
    · simpa using IsRedirection.output ha (Or.inr ⟨b, hb, rfl⟩) hgap hx

theorem isCall_of_grows {level : Nat} {out : List Tree}
    (h : GrowsAll .call level (body .call) [] out) : IsCall (.node .call out) := by
  obtain ⟨_, hl, _, hh, _, ⟨x, hx, rfl⟩, _, ht, _, hr, rfl⟩ := h
  obtain ⟨lead, hlead, rfl⟩ := atMostOne_of_grows (adds_oneOf _ _ _) hl
  obtain ⟨heads, hheads, rfl⟩ := pairs_of_loop (adds_rule _ _ _ _) (adds_oneOf _ _ _) hh
  obtain ⟨tails, htails, rfl⟩ := pairs_of_loop (adds_oneOf _ _ _) (adds_rule _ _ _ _) ht
  obtain ⟨trail, htrail, rfl⟩ := atMostOne_of_grows (adds_oneOf _ _ _) hr
  simpa using IsCall.words hlead hheads hx htails htrail

theorem isPipe_of_grows {level : Nat} {out : List Tree}
    (h : GrowsAll .pipe level (body .pipe) [] out) : IsPipe (.node .pipe out) := by
  obtain ⟨_, ⟨a, ha, rfl⟩, _, ⟨s, hs, rfl⟩, _, ⟨b, hb, rfl⟩, _, hloop, rfl⟩ := h
  rw [grows_loop] at hloop
  -- Every round wraps the pipe read so far, so being a pipe is kept by each.
  induction hloop with
  | refl => exact IsPipe.two ha hs hb
  | tail _ hround ih =>
      obtain ⟨_, _, rfl, _, ⟨s, hs, rfl⟩, _, ⟨b, hb, rfl⟩, rfl⟩ := hround
      exact IsPipe.more ih hs hb

theorem shape_command_of_grows {level : Nat} {out : List Tree}
    (h : GrowsAll .command level (body .command) [] out) :
    Shape .command level (.node .command out) := by
  obtain ⟨first, hfirst, _, hloop, rfl⟩ := h
  have hitem : IsItem (.node .command first) := by
    obtain ⟨xs, hxs, hx⟩ := growsSome_iff.mp hfirst
    rw [List.mem_cons, List.mem_singleton] at hxs
    rcases hxs with rfl | rfl
    · obtain ⟨_, ⟨t, ht, rfl⟩, rfl⟩ := hx
      exact IsItem.pipe ht
    · obtain ⟨_, ⟨t, ht, rfl⟩, rfl⟩ := hx
      exact IsItem.call ht
  rw [grows_loop] at hloop
  induction hloop with
  | refl => exact ⟨IsCommand.item hitem, fun _ => hitem⟩
  | tail _ hround ih =>
      obtain ⟨hopen, _, rfl, _, ⟨s, hs, rfl⟩, _, ⟨b, hb, rfl⟩, rfl⟩ := hround
      have hlevel : level ≤ commandLimit := of_decide_eq_true hopen
      refine ⟨IsCommand.join ih.1 hs (hb.2 (by decide)), ?_⟩
      intro hl
      omega

theorem isLine_of_grows {level : Nat} {out : List Tree}
    (h : GrowsAll .line level (body .line) [] out) : IsLine (.node .line out) := by
  obtain ⟨_, h, rfl⟩ := h
  obtain ⟨xs, hxs, h⟩ := growsSome_iff.mp h
  rw [List.mem_cons, List.mem_singleton] at hxs
  rcases hxs with rfl | rfl
  · obtain ⟨_, ⟨t, ht, rfl⟩, rfl⟩ := h
    exact IsLine.command ht.1
  · obtain ⟨_, ⟨a, ha, rfl⟩, rfl⟩ := h
    exact IsLine.finish ha

theorem isAtom_of_grows {level : Nat} {out : List Tree}
    (h : GrowsAll .atom level (body .atom) [] out) : Tree.IsAtom (.node .atom out) := by
  obtain ⟨_, h, rfl⟩ := h
  obtain ⟨xs, hxs, h⟩ := growsSome_iff.mp h
  rw [List.mem_cons, List.mem_singleton] at hxs
  rcases hxs with rfl | rfl
  · obtain ⟨_, ⟨t, ht, rfl⟩, rfl⟩ := h
    exact IsAtom.redirection ht
  · obtain ⟨_, ⟨t, ht, rfl⟩, rfl⟩ := h
    exact IsAtom.argument ht

theorem isQuoted_of_grows {level : Nat} {out : List Tree}
    (h : GrowsAll .quoted level (body .quoted) [] out) : IsQuoted (.node .quoted out) := by
  obtain ⟨_, h, rfl⟩ := h
  obtain ⟨xs, hxs, h⟩ := growsSome_iff.mp h
  rw [List.mem_cons, List.mem_cons, List.mem_singleton] at hxs
  rcases hxs with rfl | rfl | rfl
  · obtain ⟨_, ⟨t, ht, rfl⟩, rfl⟩ := h
    exact IsQuoted.single ht
  · obtain ⟨_, ⟨t, ht, rfl⟩, rfl⟩ := h
    exact IsQuoted.double ht
  · obtain ⟨_, ⟨t, ht, rfl⟩, rfl⟩ := h
    exact IsQuoted.back ht

theorem isSingleQuoted_of_grows {level : Nat} {out : List Tree}
    (h : GrowsAll .singleQuoted level (body .singleQuoted) [] out) :
    IsSingleQuoted (.node .singleQuoted out) := by
  obtain ⟨_, ⟨a, ha, rfl⟩, _, hi, _, ⟨b, hb, rfl⟩, rfl⟩ := h
  obtain ⟨inner, hinner, rfl⟩ := singles_of_loop (adds_oneOf _ _ _) hi
  simpa using IsSingleQuoted.quoted ha hinner hb

theorem isBackQuoted_of_grows {level : Nat} {out : List Tree}
    (h : GrowsAll .backQuoted level (body .backQuoted) [] out) :
    IsBackQuoted (.node .backQuoted out) := by
  obtain ⟨_, hw, _, ⟨a, ha, rfl⟩, _, hi, _, ⟨b, hb, rfl⟩, _, hv, rfl⟩ := h
  obtain ⟨before, hbefore, rfl⟩ := singles_of_loop (adds_token _ _ _) hw
  obtain ⟨inner, hinner, rfl⟩ := singles_of_loop (adds_oneOf _ _ _) hi
  obtain ⟨after, hafter, rfl⟩ := singles_of_loop (adds_token _ _ _) hv
  simpa using IsBackQuoted.quoted hbefore ha hinner hb hafter

/-- What stands between double quotes, as the rule for it lists it. -/
theorem adds_inside (r : Rule) (level : Nat) :
    Adds r level (.choice .inside
      [[.rule .backQuoted 0], [.token .word], [.token .semicolon], [.token .bar],
        [.token .less], [.token .greater], [.token .singleMark], [.token .blank]])
      (fun t => IsBackQuoted t ∨ IsLeaf doubleKinds t) := by
  intro kids out h
  obtain ⟨xs, hxs, h⟩ := growsSome_iff.mp h
  rcases List.mem_cons.mp hxs with rfl | hxs
  · obtain ⟨_, ⟨t, ht, rfl⟩, rfl⟩ := h
    exact ⟨t, Or.inl ht, rfl⟩
  · have hk : ∃ k ∈ doubleKinds, xs = [.token k] := by simpa [doubleKinds] using hxs
    obtain ⟨k, hk, rfl⟩ := hk
    obtain ⟨_, ⟨t, ⟨ht⟩, rfl⟩, rfl⟩ := h
    rw [List.mem_singleton] at ht
    exact ⟨_, Or.inr (IsLeaf.leaf (ht ▸ hk)), rfl⟩

theorem isDoubleQuoted_of_grows {level : Nat} {out : List Tree}
    (h : GrowsAll .doubleQuoted level (body .doubleQuoted) [] out) :
    IsDoubleQuoted (.node .doubleQuoted out) := by
  obtain ⟨_, hw, _, ⟨a, ha, rfl⟩, _, hi, _, ⟨b, hb, rfl⟩, _, hv, rfl⟩ := h
  obtain ⟨before, hbefore, rfl⟩ := singles_of_loop (adds_token _ _ _) hw
  obtain ⟨inner, hinner, rfl⟩ := singles_of_loop (adds_inside _ _) hi
  obtain ⟨after, hafter, rfl⟩ := singles_of_loop (adds_token _ _ _) hv
  simpa using IsDoubleQuoted.quoted hbefore ha hinner hb hafter

/-- Whatever the items of a rule let grow is a tree of the rule. -/
theorem shape_of_grows {r : Rule} {level : Nat} {out : List Tree}
    (h : GrowsAll r level (body r) [] out) : Shape r level (.node r out) := by
  cases r with
  | line => exact isLine_of_grows h
  | command => exact shape_command_of_grows h
  | pipe => exact isPipe_of_grows h
  | call => exact isCall_of_grows h
  | atom => exact isAtom_of_grows h
  | argument => exact isArgument_of_grows h
  | redirection => exact isRedirection_of_grows h
  | unquoted =>
      obtain ⟨_, ⟨a, ha, rfl⟩, rfl⟩ := h
      exact IsUnquoted.word ha
  | quoted => exact isQuoted_of_grows h
  | singleQuoted => exact isSingleQuoted_of_grows h
  | backQuoted => exact isBackQuoted_of_grows h
  | doubleQuoted => exact isDoubleQuoted_of_grows h

end Grammar

end CommandShell
