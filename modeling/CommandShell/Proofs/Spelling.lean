import CommandShell.Proofs.Language

/-! # How derived texts are spelled

The same kinds can be derived in several ways: a word beside a quotation is a piece of its own or
belongs to the quotation, and a sequence can be split at any `;`. The spellings here leave these
choices out. They are closed under all rules, so whatever a rule derives is spelled like this. -/

namespace CommandShell

open Computability

namespace Spelling

open CommandShell.Tree

/-- Kinds between two marks. -/
def between (mark : Kind) (q : List Kind) : List Kind := mark :: (q ++ [mark])

/-- No token, or one of the kinds. -/
def Maybe (ks : List Kind) (q : List Kind) : Prop := q = [] ∨ ∃ k ∈ ks, q = [k]

def gapKinds : List Kind := [.blank, .lineBreak]

/-- One thing between double quotes. -/
inductive Inner : List Kind → Prop
  | plain {k : Kind} (h : k ∈ doubleKinds) : Inner [k]
  | back {q : List Kind} (h : ∀ k ∈ q, k ∈ backKinds) : Inner (between .backMark q)

/-- A word or a quotation without the words beside it. -/
inductive Stretch : List Kind → Prop
  | word : Stretch [.word]
  | single {q : List Kind} (h : ∀ k ∈ q, k ∈ singleKinds) : Stretch (between .singleMark q)
  | back {q : List Kind} (h : ∀ k ∈ q, k ∈ backKinds) : Stretch (between .backMark q)
  | double {ps : List (List Kind)} (h : ∀ p ∈ ps, Inner p) :
      Stretch (between .doubleMark ps.flatten)

inductive Argument : List Kind → Prop
  | stretches {ss : List (List Kind)} (hne : ss ≠ []) (h : ∀ s ∈ ss, Stretch s) :
      Argument ss.flatten

inductive Redirection : List Kind → Prop
  | input {g a : List Kind} (hg : Maybe [.blank] g) (ha : Argument a) :
      Redirection (.less :: (g ++ a))
  | output {m g a : List Kind} (hm : Maybe [.greater] m) (hg : Maybe [.blank] g)
      (ha : Argument a) : Redirection (.greater :: (m ++ (g ++ a)))

inductive Atom : List Kind → Prop
  | redirection {q : List Kind} (h : Redirection q) : Atom q
  | argument {q : List Kind} (h : Argument q) : Atom q

/-- A redirection before the first word, with the gap behind it. -/
inductive Head : List Kind → Prop
  | head {q : List Kind} {k : Kind} (h : Redirection q) (hk : k ∈ gapKinds) : Head (q ++ [k])

/-- A redirection or word after the first, with the gap before it. -/
inductive Tail : List Kind → Prop
  | tail {k : Kind} {q : List Kind} (hk : k ∈ gapKinds) (h : Atom q) : Tail (k :: q)

inductive Call : List Kind → Prop
  | words {l a r : List Kind} {hs ts : List (List Kind)} (hl : Maybe gapKinds l)
      (hh : ∀ h ∈ hs, Head h) (ha : Argument a) (ht : ∀ t ∈ ts, Tail t) (hr : Maybe gapKinds r) :
      Call (l ++ (hs.flatten ++ (a ++ (ts.flatten ++ r))))

/-- Spellings with a mark between each two of them. -/
def separated (mark : Kind) (q : List Kind) (qs : List (List Kind)) : List Kind :=
  q ++ qs.flatMap (mark :: ·)

/-- One call, or several with bars between them. -/
inductive Item : List Kind → Prop
  | calls {c : List Kind} {cs : List (List Kind)} (h : ∀ x ∈ c :: cs, Call x) :
      Item (separated .bar c cs)

inductive Command : List Kind → Prop
  | items {i : List Kind} {is : List (List Kind)} (h : ∀ x ∈ i :: is, Item x) :
      Command (separated .semicolon i is)

theorem Inner.exists_cons {q : List Kind} (h : Inner q) :
    ∃ k t, q = k :: t ∧ (k = .word → t = []) := by
  cases h with
  | plain hk => exact ⟨_, [], rfl, fun _ => rfl⟩
  | back hq => exact ⟨_, _, rfl, fun h => nomatch h⟩

theorem Stretch.exists_cons {q : List Kind} (h : Stretch q) :
    ∃ k t, q = k :: t ∧ (k = .word → t = []) := by
  cases h with
  | word => exact ⟨_, [], rfl, fun _ => rfl⟩
  | _ => exact ⟨_, _, rfl, fun h => nomatch h⟩

/-- Words around a quotation. -/
def Beside (p : List Kind → Prop) (q : List Kind) : Prop :=
  ∃ m n s, p s ∧ q = List.replicate m .word ++ (s ++ List.replicate n .word)

/-- A text between back quotes. -/
def Back (q : List Kind) : Prop :=
  ∃ inner, (∀ k ∈ inner, k ∈ backKinds) ∧ q = between .backMark inner

/-- How the texts of a rule are spelled. -/
def ofRule : Rule → Language Kind
  | .line => fun q => Command q ∨ q = [.finish]
  | .command => Command
  | .pipe => Item
  | .call => Call
  | .atom => Atom
  | .redirection => Redirection
  | .argument | .unquoted | .quoted | .singleQuoted | .doubleQuoted => Argument
  | .backQuoted => Beside Back

end Spelling

namespace Grammar

/-- The texts of an expression when the texts of every rule are given. -/
def language (texts : Rule → Language Kind) : Expression → Language Kind
  | .zero => 0
  | .epsilon => 1
  | .char (.terminal k) => {[k]}
  | .char (.nonterminal r) => texts r
  | .plus d e => language texts d + language texts e
  | .comp d e => language texts d * language texts e
  | .star e => (language texts e)∗

section Language

variable {texts : Rule → Language Kind} {d e : Expression} {q : List Kind}

theorem mem_language_one {k : Kind} : q ∈ language texts (one k) ↔ q = [k] := Iff.rfl

theorem mem_language_someOf {ks : List Kind} :
    q ∈ language texts (someOf ks) ↔ ∃ k ∈ ks, q = [k] := by
  induction ks with
  | nil =>
      constructor
      · intro h
        cases h
      · rintro ⟨k, hk, _⟩
        cases hk
  | cons l ls ih =>
      have hcons : q ∈ language texts (someOf (l :: ls)) ↔
          q = [l] ∨ q ∈ language texts (someOf ls) := Iff.rfl
      rw [hcons, ih]
      simp

theorem mem_language_star_someOf {ks : List Kind} (h : q ∈ language texts (someOf ks).star) :
    ∀ k ∈ q, k ∈ ks := by
  obtain ⟨qs, rfl, hqs⟩ := h
  intro k hk
  obtain ⟨x, hx, hk⟩ := List.mem_flatten.mp hk
  obtain ⟨l, hl, rfl⟩ := mem_language_someOf.mp (hqs x hx)
  rwa [List.mem_singleton.mp hk]

theorem mem_language_star_one {k : Kind} (h : q ∈ language texts (one k).star) :
    ∃ n, q = List.replicate n k := by
  obtain ⟨qs, rfl, hqs⟩ := h
  refine ⟨qs.flatten.length, List.eq_replicate_of_mem ?_⟩
  intro l hl
  obtain ⟨x, hx, hl⟩ := List.mem_flatten.mp hl
  rw [mem_language_one.mp (hqs x hx)] at hl
  exact List.mem_singleton.mp hl

/-- Trees whose roots are as the expression says have a text of the expression. -/
theorem mem_language_of_roots {ts : List Tree} (h : ts.map Tree.root ∈ e.matches')
    (hts : ∀ t ∈ ts, t.kinds ∈ language texts (.char t.root)) :
    ts.flatMap Tree.kinds ∈ language texts e := by
  induction e generalizing ts with
  | zero => cases h
  | epsilon =>
      obtain rfl := List.map_eq_nil_iff.mp h
      rfl
  | char a =>
      obtain ⟨t, rfl, rfl⟩ := List.map_eq_singleton_iff.mp h
      rw [List.flatMap_singleton]
      exact hts t (by simp)
  | plus d e ihd ihe =>
      rcases h with h | h
      · exact Or.inl (ihd h hts)
      · exact Or.inr (ihe h hts)
  | comp d e ihd ihe =>
      obtain ⟨a, ha, b, hb, hab⟩ := h
      obtain ⟨us, vs, rfl, rfl, rfl⟩ := List.map_eq_append_iff.mp hab.symm
      rw [List.flatMap_append]
      exact Language.append_mem_mul (ihd ha fun t ht => hts t (by simp [ht]))
        (ihe hb fun t ht => hts t (by simp [ht]))
  | star e ih =>
      obtain ⟨rounds, hrounds, he⟩ := h
      -- The trees fall apart into the same rounds as their roots.
      induction rounds generalizing ts with
      | nil =>
          obtain rfl := List.map_eq_nil_iff.mp hrounds
          exact Language.nil_mem_kstar _
      | cons a rounds ihr =>
          obtain ⟨us, vs, rfl, rfl, hvs⟩ := List.map_eq_append_iff.mp hrounds
          obtain ⟨qs, hqs, hq⟩ :=
            ihr (fun t ht => hts t (by simp [ht])) hvs fun y hy => he y (by simp [hy])
          refine ⟨us.flatMap Tree.kinds :: qs, by simp [hqs], ?_⟩
          intro y hy
          rcases List.mem_cons.mp hy with rfl | hy
          · exact ih (he _ (by simp)) fun t ht => hts t (by simp [ht])
          · exact hq y hy

end Language

end Grammar

namespace Spelling

open Grammar CommandShell.Tree

section Closed

variable {q : List Kind}

theorem Stretch.argument (h : Stretch q) : Argument q := by
  have ha := Argument.stretches (List.cons_ne_nil q []) (by simpa using h)
  rwa [List.flatten_singleton] at ha

theorem Argument.append {a b : List Kind} (ha : Argument a) (hb : Argument b) :
    Argument (a ++ b) := by
  obtain ⟨hne, hs⟩ := ha
  obtain ⟨_, ht⟩ := hb
  rw [← List.flatten_append]
  refine .stretches (by simp [hne]) ?_
  intro x hx
  exact (List.mem_append.mp hx).elim (hs x) (ht x)

theorem Argument.append_flatten {a : List Kind} (ha : Argument a) {qs : List (List Kind)}
    (hq : ∀ x ∈ qs, Argument x) : Argument (a ++ qs.flatten) := by
  induction qs generalizing a with
  | nil => simpa using ha
  | cons b qs ih =>
      have h := ih (ha.append (hq b (by simp))) fun x hx => hq x (by simp [hx])
      simpa using h

/-- Words beside an argument belong to it. -/
theorem Argument.beside {a : List Kind} (ha : Argument a) (m n : Nat) :
    Argument (List.replicate m .word ++ (a ++ List.replicate n .word)) := by
  have hright : Argument (a ++ List.replicate n .word) := by
    induction n with
    | zero => simpa using ha
    | succ n ih =>
        rw [List.replicate_succ', ← List.append_assoc]
        exact ih.append Stretch.word.argument
  induction m with
  | zero => simpa using hright
  | succ m ih =>
      rw [List.replicate_succ]
      exact Stretch.word.argument.append ih

theorem maybe_of_mem {texts : Rule → Language Kind} {ks : List Kind}
    (h : q ∈ language texts (maybe (someOf ks))) : Maybe ks q := by
  rcases h with rfl | h
  · exact Or.inl rfl
  · exact Or.inr (mem_language_someOf.mp h)

theorem maybe_of_mem_one {texts : Rule → Language Kind} {k : Kind}
    (h : q ∈ language texts (maybe (one k))) : Maybe [k] q := by
  rcases h with rfl | rfl
  · exact Or.inl rfl
  · exact Or.inr ⟨k, by simp, rfl⟩

theorem closed_singleQuoted (h : q ∈ language ofRule (rightSide .singleQuoted)) : Argument q := by
  obtain ⟨_, rfl, _, ⟨inner, hi, _, rfl, rfl⟩, rfl⟩ := h
  refine Stretch.argument (.single fun k hk => ?_)
  have hmem := mem_language_star_someOf hi k hk
  revert hmem
  cases k <;> decide

theorem closed_backQuoted (h : q ∈ language ofRule (rightSide .backQuoted)) : Beside Back q := by
  obtain ⟨_, hm, _, ⟨_, rfl, _, ⟨inner, hi, _, ⟨_, rfl, _, hn, rfl⟩, rfl⟩, rfl⟩, rfl⟩ := h
  obtain ⟨m, rfl⟩ := mem_language_star_one hm
  obtain ⟨n, rfl⟩ := mem_language_star_one hn
  refine ⟨m, n, _, ⟨inner, fun k hk => ?_, rfl⟩, by simp [between]⟩
  have hmem := mem_language_star_someOf hi k hk
  revert hmem
  cases k <;> decide

/-- What is between double quotes falls apart into single tokens and texts between back quotes. -/
theorem inners_of_mem {ks : List Kind} (hks : ks ⊆ doubleKinds)
    (h : q ∈ language ofRule (sub .backQuoted + someOf ks).star) :
    ∃ ps : List (List Kind), (∀ p ∈ ps, Inner p) ∧ q = ps.flatten := by
  obtain ⟨qs, rfl, hqs⟩ := h
  induction qs with
  | nil => exact ⟨[], by simp, rfl⟩
  | cons x qs ih =>
      obtain ⟨ps, hps, hflat⟩ := ih fun y hy => hqs y (by simp [hy])
      obtain ⟨xs, hxs, rfl⟩ : ∃ xs : List (List Kind), (∀ p ∈ xs, Inner p) ∧ x = xs.flatten := by
        rcases hqs x (by simp) with ⟨m, n, _, ⟨inner, hi, rfl⟩, rfl⟩ | hx
        · refine ⟨List.replicate m [.word] ++ (between .backMark inner :: List.replicate n [.word]),
            ?_, by simp⟩
          have hword : Inner [.word] := .plain (by decide)
          intro p hp
          simp only [List.mem_append, List.mem_cons, List.mem_replicate] at hp
          rcases hp with ⟨-, rfl⟩ | rfl | ⟨-, rfl⟩
          · exact hword
          · exact .back hi
          · exact hword
        · obtain ⟨k, hk, rfl⟩ := mem_language_someOf.mp hx
          exact ⟨[[k]], by simpa using Inner.plain (hks hk), rfl⟩
      refine ⟨xs ++ ps, ?_, by simp [hflat]⟩
      intro p hp
      exact (List.mem_append.mp hp).elim (hxs p) (hps p)

theorem closed_doubleQuoted (h : q ∈ language ofRule (rightSide .doubleQuoted)) : Argument q := by
  obtain ⟨_, hm, _, ⟨_, rfl, _, ⟨inner, hi, _, ⟨_, rfl, _, hn, rfl⟩, rfl⟩, rfl⟩, rfl⟩ := h
  obtain ⟨m, rfl⟩ := mem_language_star_one hm
  obtain ⟨n, rfl⟩ := mem_language_star_one hn
  obtain ⟨ps, hps, rfl⟩ := inners_of_mem (by decide) hi
  have h := (Stretch.double hps).argument.beside m n
  simpa [between] using h

theorem closed_redirection (h : q ∈ language ofRule (rightSide .redirection)) : Redirection q := by
  rcases h with ⟨_, rfl, _, ⟨g, hg, a, ha, rfl⟩, rfl⟩ |
    ⟨m, hm, _, ⟨_, rfl, _, ⟨g, hg, a, ha, rfl⟩, rfl⟩, rfl⟩
  · have hr : Redirection (.less :: (g ++ a)) := .input (maybe_of_mem_one hg) ha
    exact hr
  · -- Of two signs the first is the one that may be left out.
    have hr : ∀ x, Maybe [.greater] x → Redirection (.greater :: (x ++ (g ++ a))) :=
      fun x hx => .output hx (maybe_of_mem_one hg) ha
    rcases hm with rfl | rfl
    · exact hr [] (Or.inl rfl)
    · exact hr [.greater] (Or.inr ⟨_, List.mem_singleton_self _, rfl⟩)

theorem closed_call (h : q ∈ language ofRule (rightSide .call)) : Call q := by
  obtain ⟨l, hl, _, ⟨_, ⟨hs, rfl, hh⟩, _, hafter, rfl⟩, rfl⟩ := h
  obtain ⟨a, ha, _, ⟨_, ⟨ts, rfl, ht⟩, r, hr, rfl⟩, rfl⟩ := hafter
  refine .words (maybe_of_mem hl) ?_ ha ?_ (maybe_of_mem hr)
  · intro x hx
    obtain ⟨y, hy, z, hz, rfl⟩ := hh x hx
    obtain ⟨k, hk, rfl⟩ := mem_language_someOf.mp hz
    exact .head hy hk
  · intro x hx
    obtain ⟨y, hy, z, hz, rfl⟩ := ht x hx
    obtain ⟨k, hk, rfl⟩ := mem_language_someOf.mp hy
    exact .tail hk hz

theorem Call.item (h : Call q) : Item q := by
  have hi := @Item.calls q [] (by simpa using h)
  simpa [separated] using hi

theorem Item.command (h : Item q) : Command q := by
  have hc := @Command.items q [] (by simpa using h)
  simpa [separated] using hc

theorem Item.append {i c : List Kind} (hi : Item i) (hc : Call c) : Item (i ++ .bar :: c) := by
  obtain @⟨d, ds, hd⟩ := hi
  have h := @Item.calls d (ds ++ [c]) ?_
  · simpa [separated] using h
  · intro x hx
    rcases List.mem_cons.mp hx with rfl | hx
    · exact hd _ (by simp)
    · rcases List.mem_append.mp hx with hx | hx
      · exact hd x (by simp [hx])
      · rwa [List.mem_singleton.mp hx]

theorem Command.append {a b : List Kind} (ha : Command a) (hb : Command b) :
    Command (a ++ .semicolon :: b) := by
  obtain @⟨i, is, hi⟩ := ha
  obtain @⟨j, js, hj⟩ := hb
  have h := @Command.items i (is ++ j :: js) ?_
  · simpa [separated] using h
  · intro x hx
    rcases List.mem_cons.mp hx with rfl | hx
    · exact hi _ (by simp)
    · rcases List.mem_append.mp hx with hx | hx
      · exact hi x (by simp [hx])
      · exact hj x hx

/-- The spellings are closed under the rules. -/
theorem closed {r : Rule} (h : q ∈ language ofRule (rightSide r)) : q ∈ ofRule r := by
  cases r with
  | line => exact h
  | command =>
      rcases h with (h | ⟨a, ha, _, ⟨_, rfl, b, hb, rfl⟩, rfl⟩) | h
      · exact Item.command h
      · exact Command.append ha hb
      · exact (Call.item h).command
  | pipe =>
      rcases h with ⟨a, ha, _, ⟨_, rfl, b, hb, rfl⟩, rfl⟩ | ⟨a, ha, _, ⟨_, rfl, b, hb, rfl⟩, rfl⟩
      · exact (Call.item ha).append hb
      · exact Item.append ha hb
  | call => exact closed_call h
  | atom => exact h.elim .redirection .argument
  | argument =>
      have hpiece : ∀ x ∈ language ofRule (sub .quoted + sub .unquoted), Argument x :=
        fun x hx => hx.elim id id
      obtain ⟨a, ha, _, ⟨qs, rfl, hq⟩, rfl⟩ := h
      exact (hpiece a ha).append_flatten fun x hx => hpiece x (hq x hx)
  | redirection => exact closed_redirection h
  | unquoted =>
      obtain rfl := mem_language_one.mp h
      exact Stretch.word.argument
  | quoted =>
      rcases h with (h | h) | ⟨m, n, _, ⟨inner, hi, rfl⟩, rfl⟩
      · exact h
      · exact h
      · exact (Stretch.back hi).argument.beside m n
  | singleQuoted => exact closed_singleQuoted h
  | backQuoted => exact closed_backQuoted h
  | doubleQuoted => exact closed_doubleQuoted h

end Closed

theorem kinds_node (r : Rule) (kids : List Tree) :
    (Tree.node r kids).kinds = kids.flatMap Tree.kinds := by
  have h : tokensAll kids = kids.flatMap Tree.tokens := by
    induction kids with
    | nil => rfl
    | cons t ts ih => rw [tokensAll_cons, ih, List.flatMap_cons]
  rw [Tree.kinds, tokens_node, h, List.map_flatMap]
  rfl

theorem mem_of_isDerivation {t : Tree} (h : t.IsDerivation) :
    t.kinds ∈ language ofRule (.char t.root) := by
  induction h with
  | leaf t => rfl
  | node hr _ ih =>
      rw [kinds_node]
      exact closed (mem_language_of_roots hr ih)

/-- Whatever a rule derives is spelled as the rule says. -/
theorem of_derives {r : Rule} {ks : List Kind} (h : Derives r ks) : ks ∈ ofRule r := by
  obtain ⟨t, ht, hroot, rfl⟩ := h
  have hmem := mem_of_isDerivation ht
  rwa [hroot] at hmem

end Spelling

end CommandShell
