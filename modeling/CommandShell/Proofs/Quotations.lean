import CommandShell.Proofs.Builds
import CommandShell.Proofs.Forecasts

/-! # Reading quotations and arguments

An argument that is spelled as the grammar says is read to its end without a complaint, and its
tree is the same whatever follows it. A word right before a quotation is read as a part of it, and
so are the words right after it. -/

namespace CommandShell.Parse

open Grammar Spelling CommandShell.Tree

section Words

variable {r : Rule} {level : Nat} {todo : List Item} {ts rest : List Token}

theorem between_append (mark : Kind) (q ks : List Kind) :
    between mark q ++ ks = mark :: (q ++ mark :: ks) := by simp [between]

/-- Tokens of some kinds between two marks. -/
structure Quote (mark : Kind) (ls : List Kind) (a : Token) (ts : List Token) (b : Token) :
    Prop where
  first : a.kind = mark
  inner : ∀ t ∈ ts, t.kind ∈ ls
  last : b.kind = mark

theorem exists_marks {mark : Kind} {q : List Kind} (h : kindsOf ts = between mark q) :
    ∃ a us b, ts = a :: (us ++ [b]) ∧ a.kind = mark ∧ kindsOf us = q ∧ b.kind = mark := by
  obtain ⟨a, vs, rfl, ha, hvs⟩ := kindsOf_eq_cons h
  obtain ⟨us, bs, rfl, hus, hbs⟩ := kindsOf_eq_append hvs
  obtain ⟨b, rfl, hb⟩ := kindsOf_eq_singleton hbs
  exact ⟨a, us, b, rfl, ha, hus, hb⟩

theorem exists_quote {mark : Kind} {q ls : List Kind} (h : kindsOf ts = between mark q)
    (hq : ∀ k ∈ q, k ∈ ls) : ∃ a us b, ts = a :: (us ++ [b]) ∧ Quote mark ls a us b := by
  obtain ⟨a, us, b, rfl, ha, hus, hb⟩ := exists_marks h
  refine ⟨a, us, b, rfl, ha, ?_, hb⟩
  intro t ht
  apply hq
  rw [← hus]
  exact kind_mem_kindsOf ht

theorem inner_cases (h : Inner (kindsOf ts)) :
    (∃ t, ts = [t] ∧ t.kind ∈ doubleKinds) ∨
      ∃ a us b, ts = a :: (us ++ [b]) ∧ Quote .backMark backKinds a us b := by
  generalize hq : kindsOf ts = q at h
  cases h with
  | plain hk =>
      obtain ⟨t, rfl, rfl⟩ := kindsOf_eq_singleton hq
      exact Or.inl ⟨t, rfl, hk⟩
  | back hback => exact Or.inr (exists_quote hq hback)

/-- Tokens that are all words. -/
def AreWords (ts : List Token) : Prop := ∀ t ∈ ts, t.kind ∈ [Kind.word]

theorem AreWords.kindsOf_eq (h : AreWords ts) : kindsOf ts = List.replicate ts.length .word := by
  induction ts with
  | nil => rfl
  | cons t ts ih =>
      have ht : t.kind = .word := List.mem_singleton.mp (h t (by simp))
      rw [kindsOf_cons, ht, ih fun u hu => h u (by simp [hu]), List.length_cons,
        List.replicate_succ]

theorem builds_words_to (h : AreWords ts) {t : Token} (hk : t.kind ≠ .word)
    (hv : t.kind ∈ firstAll todo) :
    Builds r level (.loop .one [.token .word] :: todo) ts (t :: rest) (ts.map .leaf) todo :=
  builds_tokens_to (Or.inl rfl) rfl h (by simpa using hk) hv

theorem builds_words (h : AreWords ts) (hk : kindAt (kindsOf rest) 0 ≠ .word) :
    Builds r level [.loop .one [.token .word]] ts rest (ts.map .leaf) [] :=
  builds_tokens (Or.inl rfl) rfl h (by simpa using hk) (Or.inr rfl)

/-- Of the spelled parts some tokens at the start are taken; what is left is spelled too. -/
structure Takes (p : List Kind → Prop) (all : List (List Token)) (taken : List Token)
    (left : List (List Token)) : Prop where
  split : all.flatten = taken ++ left.flatten
  fewer : left.length < all.length
  each : ∀ x ∈ left, p (kindsOf x)

/-- Spelled parts fall apart into the words at their start and the rest. -/
theorem exists_words {p : List Kind → Prop} {xs : List (List Token)}
    (hp : ∀ x, p x → ∃ k t, x = k :: t ∧ (k = .word → t = [])) (h : ∀ x ∈ xs, p (kindsOf x)) :
    ∃ (ws : List Token) (ys : List (List Token)),
      xs.flatten = ws ++ ys.flatten ∧ ys.length ≤ xs.length ∧ AreWords ws ∧
      (∀ y ∈ ys, p (kindsOf y)) ∧ ∀ rest, kindAt (kindsOf rest) 0 ≠ .word →
        kindAt (kindsOf (ys.flatten ++ rest)) 0 ≠ .word := by
  induction xs with
  | nil => exact ⟨[], [], rfl, Nat.le_refl _, by simp [AreWords], h, fun _ hk => hk⟩
  | cons x xs ih =>
      obtain ⟨k, t, hx, ht⟩ := hp _ (h x (by simp))
      obtain ⟨a, us, rfl, ha, hus⟩ := kindsOf_eq_cons hx
      by_cases hw : k = .word
      · obtain ⟨ws, ys, hflat, hlen, hws, hys, hkind⟩ := ih fun y hy => h y (by simp [hy])
        have hnil : us = [] := kindsOf_eq_nil (hus.trans (ht hw))
        refine ⟨a :: ws, ys, ?_, by simp; omega, ?_, hys, hkind⟩
        · rw [List.flatten_cons, hnil, hflat]
          rfl
        · intro t ht
          rcases List.mem_cons.mp ht with rfl | ht
          · simp [ha, hw]
          · exact hws t ht
      · refine ⟨[], (a :: us) :: xs, rfl, Nat.le_refl _, by simp [AreWords], h, ?_⟩
        intro rest _
        simpa [ha] using hw

end Words

/-! ### Quotations -/

section Quotations

variable {level : Nat} {a b : Token} {ts us vs rest : List Token}

theorem builds_singleQuoted (h : Quote .singleMark singleKinds a ts b) :
    Builds .singleQuoted level (body .singleQuoted) (a :: (ts ++ [b])) rest
      (.leaf a :: (ts.map .leaf ++ [.leaf b])) [] := by
  obtain ⟨ha, ht, hb⟩ := h
  refine builds_cons rfl (by simp [ha]) (Builds.trans (builds_tokens_to (Or.inl rfl) rfl ht ?_ ?_)
    (builds_token rfl (by simp [hb])))
  · rw [hb]
    decide
  · rw [hb]
    decide

theorem builds_backQuoted (hu : AreWords us) (h : Quote .backMark backKinds a ts b)
    (hv : AreWords vs) (hk : kindAt (kindsOf rest) 0 ≠ .word) :
    Builds .backQuoted level (body .backQuoted) (us ++ (a :: (ts ++ (b :: vs)))) rest
      (us.map .leaf ++ (.leaf a :: (ts.map .leaf ++ (.leaf b :: vs.map .leaf)))) [] := by
  obtain ⟨ha, ht, hb⟩ := h
  refine (builds_words_to hu (by rw [ha]; decide) (by rw [ha]; decide)).trans ?_
  refine builds_cons rfl (by simp [ha]) (Builds.trans (builds_tokens_to (Or.inl rfl) rfl ht ?_ ?_)
    (builds_cons rfl (by simp [hb]) (builds_words hv hk)))
  · rw [hb]
    decide
  · rw [hb]
    decide

/-- What is between double quotes. -/
def insides : List (List Item) :=
  [[.rule .backQuoted 0], [.token .word], [.token .semicolon], [.token .bar], [.token .less],
    [.token .greater], [.token .singleMark], [.token .blank]]

theorem insideForecast_plain {k : Kind} (hk : k ∈ doubleKinds) (hw : k ≠ .word) (ks : List Kind) :
    ∃ n, insideForecast (k :: ks) = .way n ∧ insides[n]? = some [.token k] := by
  cases k with
  | semicolon => exact ⟨2, rfl, rfl⟩
  | bar => exact ⟨3, rfl, rfl⟩
  | less => exact ⟨4, rfl, rfl⟩
  | greater => exact ⟨5, rfl, rfl⟩
  | singleMark => exact ⟨6, rfl, rfl⟩
  | blank => exact ⟨7, rfl, rfl⟩
  | word => exact absurd rfl hw
  | _ => exact absurd hk (by decide)

theorem insideForecast_word {ks : List Kind} (h : kindAt ks 0 ∈ .doubleMark :: doubleKinds) :
    insideForecast (.word :: ks) = .way 1 := by
  simp only [insideForecast, kindAt_cons_zero, kindAt_cons_succ]
  revert h
  cases kindAt ks 0 <;> decide

variable {r : Rule} {todo : List Item} {ps : List (List Token)} {d : Token}

theorem builds_inside_plain {t : Token} (hk : t.kind ∈ doubleKinds)
    (hw : t.kind = .word → kindAt (kindsOf rest) 0 ∈ .doubleMark :: doubleKinds) :
    Builds r level (.choice .inside insides :: todo) [t] rest [.leaf t] todo := by
  obtain ⟨n, hn, hxs⟩ : ∃ n, insideForecast (t.kind :: kindsOf rest) = .way n ∧
      insides[n]? = some [.token t.kind] := by
    by_cases h : t.kind = .word
    · rw [h]
      exact ⟨1, insideForecast_word (hw h), rfl⟩
    · exact insideForecast_plain hk h _
  have hc : ∀ mayEnd, choose .inside mayEnd insides (kindsOf ([t] ++ rest)) = .way n :=
    fun _ => hn
  exact (turns_choice rfl hc hxs).builds (builds_token rfl (List.mem_singleton_self _))

theorem turns_inside_mark (hu : AreWords us) (hlen : us.length ≤ 1) (ha : a.kind = .backMark)
    (tail : List Token) :
    Turns r level (.choice .inside insides :: todo) (kindsOf (us ++ (a :: tail)))
      (.rule .backQuoted 0 :: todo) := by
  have hc : ∀ mayEnd, choose .inside mayEnd insides (kindsOf (us ++ (a :: tail))) = .way 0 := by
    intro mayEnd
    rw [kindsOf_append, hu.kindsOf_eq, kindsOf_cons, ha]
    match us.length, hlen with
    | 0, _ => rfl
    | 1, _ => rfl
  exact turns_choice rfl hc rfl

/-- A text between back quotes takes the word before it and the words after it. -/
theorem builds_inside_back (hu : AreWords us) (hlen : us.length ≤ 1)
    (h : Quote .backMark backKinds a ts b) (hps : ∀ x ∈ ps, Inner (kindsOf x))
    (hd : d.kind = .doubleMark) {all : List (List Token)}
    (hall : all.flatten = us ++ (a :: (ts ++ (b :: ps.flatten)))) (hfew : ps.length < all.length) :
    ∃ taken left new, Takes Inner all taken left ∧ ∀ rest,
      Builds r level (.choice .inside insides :: todo) taken (left.flatten ++ d :: rest) [new]
        todo := by
  obtain ⟨ws, ys, hflat, hfewer, hws, hys, hkind⟩ :=
    exists_words (fun _ hx => Inner.exists_cons hx) hps
  refine ⟨us ++ (a :: (ts ++ (b :: ws))), ys, .node .backQuoted (us.map .leaf ++
    (.leaf a :: (ts.map .leaf ++ (.leaf b :: ws.map .leaf)))), ⟨?_, by omega, hys⟩, fun rest => ?_⟩
  · rw [hall, hflat]
    simp
  · have hstop : kindAt (kindsOf (ys.flatten ++ d :: rest)) 0 ≠ .word := hkind _ (by simp [hd])
    have hturn : Turns r level (.choice .inside insides :: todo)
        (kindsOf (us ++ (a :: (ts ++ (b :: ws))) ++ (ys.flatten ++ d :: rest)))
        (.rule .backQuoted 0 :: todo) := by
      rw [List.append_assoc, List.cons_append]
      exact turns_inside_mark hu hlen h.first _
    exact hturn.builds (builds_rule (builds_backQuoted hu h hws hstop))

theorem kindAt_insides (h : ∀ x ∈ ps, Inner (kindsOf x)) (hd : d.kind = .doubleMark)
    (rest : List Token) :
    kindAt (kindsOf (ps.flatten ++ d :: rest)) 0 ∈ .doubleMark :: .backMark :: doubleKinds := by
  cases ps with
  | nil =>
      have hfirst : kindAt (kindsOf (d :: rest)) 0 = .doubleMark := hd
      exact hfirst ▸ List.mem_cons_self
  | cons p ps =>
      rw [List.flatten_cons, List.append_assoc]
      obtain ⟨t, rfl, ht⟩ | ⟨a, us, b, rfl, hq⟩ := inner_cases (h p (by simp))
      · exact List.mem_cons_of_mem _ (List.mem_cons_of_mem _ ht)
      · have hfirst : kindAt (kindsOf (a :: (us ++ [b]) ++ (ps.flatten ++ d :: rest))) 0 = .backMark :=
          hq.first
        rw [hfirst]
        exact List.mem_cons_of_mem _ List.mem_cons_self

/-- One thing between double quotes is read, perhaps with words beside it. -/
theorem builds_inside {q : List Token} (h : ∀ x ∈ q :: ps, Inner (kindsOf x))
    (hd : d.kind = .doubleMark) :
    ∃ taken left new, Takes Inner (q :: ps) taken left ∧ ∀ rest,
      Builds r level (.choice .inside insides :: todo) taken (left.flatten ++ d :: rest) [new]
        todo := by
  have hps : ∀ x ∈ ps, Inner (kindsOf x) := fun x hx => h x (by simp [hx])
  obtain ⟨t, rfl, hk⟩ | ⟨a, us, b, rfl, hq⟩ := inner_cases (h q (by simp))
  · have hplain : (t.kind = .word → ∀ rest,
        kindAt (kindsOf (ps.flatten ++ d :: rest)) 0 ≠ .backMark) →
        ∃ taken left new, Takes Inner ([t] :: ps) taken left ∧ ∀ rest,
          Builds r level (.choice .inside insides :: todo) taken (left.flatten ++ d :: rest)
            [new] todo := by
      intro hne
      refine ⟨[t], ps, .leaf t, ⟨rfl, by simp, hps⟩, fun rest => ?_⟩
      refine builds_inside_plain hk fun hw => ?_
      have hnext := kindAt_insides hps hd rest
      rw [List.mem_cons, List.mem_cons] at hnext
      rcases hnext with hnext | hnext | hnext
      · exact hnext ▸ List.mem_cons_self
      · exact absurd hnext (hne hw rest)
      · exact List.mem_cons_of_mem _ hnext
    cases ps with
    | nil =>
        refine hplain fun _ rest hback => ?_
        have hmark : d.kind = .backMark := hback
        rw [hd] at hmark
        cases hmark
    | cons p ps =>
        obtain ⟨l, rfl, hl⟩ | ⟨a, us, b, rfl, hq⟩ := inner_cases (hps p (by simp))
        · refine hplain fun _ rest hback => ?_
          have hmark : l.kind = .backMark := hback
          rw [hmark] at hl
          exact absurd hl (by decide)
        · by_cases hw : t.kind = .word
          · -- The word belongs to the text between back quotes that follows.
            have hword : AreWords [t] := by simpa [AreWords] using hw
            have hrest : ∀ x ∈ ps, Inner (kindsOf x) := fun x hx => hps x (by simp [hx])
            have hfew : ps.length < ([t] :: (a :: (us ++ [b])) :: ps).length := by
              rw [List.length_cons, List.length_cons]
              omega
            exact builds_inside_back hword (by simp) hq hrest hd (by simp) hfew
          · exact hplain fun h => absurd h hw
  · have hnone : AreWords [] := by simp [AreWords]
    exact builds_inside_back hnone (by simp) hq hps hd (by simp) (by simp)

theorem builds_insides {x : Item} (hx : IsLoop x .one [.choice .inside insides])
    (h : ∀ p ∈ ps, Inner (kindsOf p)) (hd : d.kind = .doubleMark)
    (hr : .doubleMark ∈ firstAll todo) :
    ∃ new, ∀ rest, Builds r level (x :: todo) ps.flatten (d :: rest) new todo := by
  induction hn : ps.length using Nat.strong_induction_on generalizing x ps with
  | _ n ih =>
      cases ps with
      | nil =>
          refine ⟨[], fun rest => ?_⟩
          have hexit : enters .one level [.choice .inside insides] (kindsOf (d :: rest)) = false := by
            apply enters_of_notMem
            rw [kindsOf_cons, kindAt_cons_zero, hd]
            decide
          have hv : Viable todo (kindsOf (d :: rest)) := by
            left
            rw [kindsOf_cons, hd]
            exact hr
          exact (turns_exit hx hexit hv).builds .refl
      | cons q ps =>
          have hround : ∃ taken left new, Takes Inner (q :: ps) taken left ∧ ∀ rest,
              Builds r level
                ([.choice .inside insides] ++ .again .one [.choice .inside insides] :: todo) taken
                (left.flatten ++ d :: rest) [new] (.again .one [.choice .inside insides] :: todo) :=
            builds_inside h hd
          obtain ⟨taken, left, t, htakes, hbuild⟩ := hround
          obtain ⟨new, hrest⟩ := ih left.length (hn ▸ htakes.fewer) (Or.inr rfl) htakes.each rfl
          refine ⟨t :: new, fun rest => ?_⟩
          have hfirst : kindAt (kindsOf ((q :: ps).flatten ++ d :: rest)) 0 ∈
              firstAll [.choice .inside insides] := by
            rw [List.flatten_cons, List.append_assoc]
            obtain ⟨l, rfl, hl⟩ | ⟨a, us, b, rfl, hq⟩ := inner_cases (h q (by simp))
            · change l.kind ∈ _
              revert hl
              cases l.kind <;> decide
            · change a.kind ∈ _
              rw [hq.first]
              decide
          have hturn : Turns r level (x :: todo) (kindsOf ((q :: ps).flatten ++ d :: rest))
              ([.choice .inside insides] ++ .again .one [.choice .inside insides] :: todo) :=
            turns_round hx (enters_of_mem rfl hfirst)
          rw [htakes.split] at hturn ⊢
          exact hturn.builds ((hbuild rest).trans (hrest rest))

theorem builds_doubleQuoted (hu : AreWords us) (ha : a.kind = .doubleMark)
    (h : ∀ p ∈ ps, Inner (kindsOf p)) (hb : b.kind = .doubleMark) (hv : AreWords vs) :
    ∃ new, ∀ rest, kindAt (kindsOf rest) 0 ≠ .word →
      Builds .doubleQuoted level (body .doubleQuoted) (us ++ (a :: (ps.flatten ++ (b :: vs)))) rest
        new [] := by
  obtain ⟨new, hinsides⟩ : ∃ new, ∀ rest, Builds .doubleQuoted level
      [.loop .one [.choice .inside insides], .token .doubleMark, .loop .one [.token .word]]
      ps.flatten (b :: rest) new [.token .doubleMark, .loop .one [.token .word]] :=
    builds_insides (Or.inl rfl) h hb (by decide)
  refine ⟨us.map .leaf ++ (.leaf a :: (new ++ (.leaf b :: vs.map .leaf))), fun rest hk => ?_⟩
  refine (builds_words_to hu (by rw [ha]; decide) (by rw [ha]; decide)).trans ?_
  refine builds_cons rfl (by simp [ha]) ((hinsides (vs ++ rest)).trans ?_)
  exact builds_cons rfl (by simp [hb]) (builds_words hv hk)

/-- Without back quotes every token between double quotes is a leaf. -/
theorem builds_insides_plain {x : Item} (hx : IsLoop x .one [.choice .inside insides])
    (h : ∀ t ∈ ts, t.kind ∈ doubleKinds) (hd : d.kind = .doubleMark)
    (hr : .doubleMark ∈ firstAll todo) :
    Builds r level (x :: todo) ts (d :: rest) (ts.map .leaf) todo := by
  induction ts generalizing x with
  | nil =>
      have hexit : enters .one level [.choice .inside insides] (kindsOf (d :: rest)) = false := by
        apply enters_of_notMem
        rw [kindsOf_cons, kindAt_cons_zero, hd]
        decide
      refine (turns_exit hx hexit (Or.inl ?_)).builds .refl
      rw [kindsOf_cons, kindAt_cons_zero, hd]
      exact hr
  | cons t ts ih =>
      have ht := h t (by simp)
      have hfirst : kindAt (kindsOf (t :: ts ++ d :: rest)) 0 ∈
          firstAll [.choice .inside insides] := by
        change t.kind ∈ _
        revert ht
        cases t.kind <;> decide
      have hnext : kindAt (kindsOf (ts ++ d :: rest)) 0 ∈ .doubleMark :: doubleKinds := by
        cases ts with
        | nil => exact List.mem_cons.mpr (Or.inl hd)
        | cons u us => exact List.mem_cons_of_mem _ (h u (by simp))
      have hround : Builds r level
          ([.choice .inside insides] ++ .again .one [.choice .inside insides] :: todo) [t]
          (ts ++ d :: rest) [.leaf t] (.again .one [.choice .inside insides] :: todo) :=
        builds_inside_plain ht fun _ => hnext
      exact (turns_round hx (enters_of_mem rfl hfirst)).builds
        (hround.trans (ih (Or.inr rfl) fun u hu => h u (by simp [hu])))

theorem builds_doubleQuoted_plain (hu : AreWords us) (h : Quote .doubleMark doubleKinds a ts b)
    (hv : AreWords vs) (hk : kindAt (kindsOf rest) 0 ≠ .word) :
    Builds .doubleQuoted level (body .doubleQuoted) (us ++ (a :: (ts ++ (b :: vs)))) rest
      (us.map .leaf ++ (.leaf a :: (ts.map .leaf ++ (.leaf b :: vs.map .leaf)))) [] := by
  obtain ⟨ha, ht, hb⟩ := h
  refine (builds_words_to hu (by rw [ha]; decide) (by rw [ha]; decide)).trans ?_
  refine builds_cons rfl (by simp [ha]) (Builds.trans (builds_insides_plain (Or.inl rfl) ht hb ?_)
    (builds_cons rfl (by simp [hb]) (builds_words hv hk)))
  decide

end Quotations

/-! ### Arguments -/

section Arguments

variable {level : Nat} {todo : List Item} {a b : Token} {ts us rest : List Token}
  {ss : List (List Token)} {new : List Tree}

def quotations : List (List Item) :=
  [[.rule .singleQuoted 0], [.rule .doubleQuoted 0], [.rule .backQuoted 0]]

theorem builds_quoted {n : Nat} {t : Rule} (hn : quotationForecast (kindsOf (ts ++ rest)) = .way n)
    (ht : quotations[n]? = some [.rule t 0]) (h : Builds t 0 (body t) ts rest new []) :
    Builds .quoted level (body .quoted) ts rest [.node t new] [] := by
  have hc : ∀ mayEnd, choose .quotation mayEnd quotations (kindsOf (ts ++ rest)) = .way n :=
    fun _ => hn
  exact (turns_choice rfl hc ht).builds (builds_rule h)

def pieces : List (List Item) := [[.rule .quoted 0], [.rule .unquoted 0]]

theorem builds_piece_quoted (hf : ∀ mayEnd, pieceForecast mayEnd (kindsOf (ts ++ rest)) = .way 0)
    (h : Builds .quoted 0 (body .quoted) ts rest new []) :
    Builds .argument level (piece :: todo) ts rest [.node .quoted new] todo := by
  have hc : ∀ mayEnd, choose .piece mayEnd pieces (kindsOf (ts ++ rest)) = .way 0 := hf
  exact (turns_choice rfl hc rfl).builds (builds_rule h)

theorem builds_piece_word {t : Token} (ht : t.kind = .word)
    (h : kindAt (kindsOf rest) 0 ≠ .doubleMark ∧ kindAt (kindsOf rest) 0 ≠ .backMark) :
    Builds .argument level (piece :: todo) [t] rest [.node .unquoted [.leaf t]] todo := by
  have hc : ∀ mayEnd, choose .piece mayEnd pieces (kindsOf ([t] ++ rest)) = .way 1 := by
    intro mayEnd
    simp [choose, pieceForecast, ht, h]
  exact (turns_choice rfl hc rfl).builds (builds_rule (builds_token rfl (by simp [ht])))

theorem builds_piece_single (h : Quote .singleMark singleKinds a ts b) :
    Builds .argument level (piece :: todo) (a :: (ts ++ [b])) rest
      [.node .quoted [.node .singleQuoted (.leaf a :: (ts.map .leaf ++ [.leaf b]))]] todo := by
  have hkinds : kindsOf (a :: (ts ++ [b]) ++ rest) =
      .singleMark :: kindsOf (ts ++ [b] ++ rest) := by
    rw [List.cons_append, kindsOf_cons, h.first]
  refine builds_piece_quoted (fun mayEnd => ?_) (builds_quoted (n := 0) ?_ rfl
    (builds_singleQuoted h))
  · rw [hkinds]
    rfl
  · rw [hkinds]
    rfl

/-- A word right before a quotation that comes to its end belongs to it. -/
theorem pieceForecast_marked {m : Nat} (hm : m ≤ 1) {mark : Kind} {q : List Kind} {o : Outlook}
    (hmark : mark = .doubleMark ∨ mark = .backMark) (ho : Outlook.ofPiece .main mark = some o)
    (hq : o.through (q ++ [mark]) = some (.word .main)) (mayEnd : Bool) (tail : List Kind) :
    pieceForecast mayEnd (List.replicate m .word ++ (between mark q ++ tail)) = .way 0 := by
  have hcloses : closes o (q ++ mark :: tail) = true := by
    have h := closes_of_through hq tail
    rwa [List.append_assoc] at h
  rw [between_append]
  match m, hm with
  | 0, _ => rcases hmark with rfl | rfl <;> rfl
  | 1, _ => cases mayEnd <;> simp [pieceForecast, hmark, ho, hcloses]

/-- What follows does not belong to the argument. -/
def Beyond (rest : List Token) : Prop := kindAt (kindsOf rest) 0 ∉ starts .argument

theorem Beyond.ne_word (h : Beyond rest) : kindAt (kindsOf rest) 0 ≠ .word :=
  fun hw => h (by rw [hw]; decide)

/-- A quotation is read with the word before it and the words after it. -/
theorem builds_piece_around {n : Nat} {t : Rule} {mark : Kind} {o : Outlook} {vs : List Token}
    (hu : AreWords us) (hlen : us.length ≤ 1) (ha : a.kind = mark) (hb : b.kind = mark)
    (hmark : mark = .doubleMark ∨ mark = .backMark) (ho : Outlook.ofPiece .main mark = some o)
    (hq : o.through (kindsOf ts ++ [mark]) = some (.word .main))
    (hn : ∀ m ≤ 1, ∀ tail, quotationForecast (List.replicate m .word ++ mark :: tail) = .way n)
    (ht : quotations[n]? = some [.rule t 0])
    (hread : Builds t 0 (body t) (us ++ (a :: (ts ++ (b :: vs)))) rest new []) :
    Builds .argument level (piece :: todo) (us ++ (a :: (ts ++ (b :: vs)))) rest
      [.node .quoted [.node t new]] todo := by
  have hkinds : kindsOf (us ++ (a :: (ts ++ (b :: vs))) ++ rest) =
      List.replicate us.length .word ++ (between mark (kindsOf ts) ++ kindsOf (vs ++ rest)) := by
    simp [hu.kindsOf_eq, ha, hb, between]
  refine builds_piece_quoted (fun mayEnd => ?_) (builds_quoted ?_ ht hread)
  · rw [hkinds]
    exact pieceForecast_marked hlen hmark ho hq mayEnd _
  · rw [hkinds, between_append]
    exact hn _ hlen _

/-- A quotation takes the word before it and the words after it. -/
theorem builds_piece_marked {n : Nat} {t : Rule} {mark : Kind} {o : Outlook}
    (hu : AreWords us) (hlen : us.length ≤ 1) (ha : a.kind = mark) (hb : b.kind = mark)
    (hmark : mark = .doubleMark ∨ mark = .backMark) (ho : Outlook.ofPiece .main mark = some o)
    (hq : o.through (kindsOf ts ++ [mark]) = some (.word .main))
    (hn : ∀ m ≤ 1, ∀ tail, quotationForecast (List.replicate m .word ++ mark :: tail) = .way n)
    (ht : quotations[n]? = some [.rule t 0])
    (hread : ∀ vs, AreWords vs → ∃ new, ∀ rest, kindAt (kindsOf rest) 0 ≠ .word →
      Builds t 0 (body t) (us ++ (a :: (ts ++ (b :: vs)))) rest new [])
    (hss : ∀ s ∈ ss, Stretch (kindsOf s)) {all : List (List Token)}
    (hall : all.flatten = us ++ (a :: (ts ++ (b :: ss.flatten)))) (hfew : ss.length < all.length) :
    ∃ taken left new, Takes Stretch all taken left ∧ ∀ rest, Beyond rest →
      Builds .argument level (piece :: todo) taken (left.flatten ++ rest) [new] todo := by
  obtain ⟨ws, ys, hflat, hfewer, hws, hys, hkind⟩ :=
    exists_words (fun _ hx => Stretch.exists_cons hx) hss
  obtain ⟨new, hnew⟩ := hread ws hws
  refine ⟨us ++ (a :: (ts ++ (b :: ws))), ys, .node .quoted [.node t new], ⟨?_, by omega, hys⟩,
    fun rest hrest => ?_⟩
  · rw [hall, hflat]
    simp
  · exact builds_piece_around hu hlen ha hb hmark ho hq hn ht
      (hnew _ (hkind rest hrest.ne_word))

theorem quotationForecast_back {m : Nat} (hm : m ≤ 1) (tail : List Kind) :
    quotationForecast (List.replicate m .word ++ .backMark :: tail) = .way 2 := by
  match m, hm with
  | 0, _ => rfl
  | 1, _ => rfl

theorem quotationForecast_double {m : Nat} (hm : m ≤ 1) (tail : List Kind) :
    quotationForecast (List.replicate m .word ++ .doubleMark :: tail) = .way 1 := by
  match m, hm with
  | 0, _ => rfl
  | 1, _ => rfl

theorem Quote.through_back (h : Quote .backMark backKinds a ts b) :
    Outlook.through (.back .main) (kindsOf ts ++ [.backMark]) = some (.word .main) := by
  have hinner : ∀ k ∈ kindsOf ts, k ∈ backKinds := List.forall_mem_map.mpr h.inner
  exact Outlook.through_back hinner fun _ => rfl

theorem builds_piece_back (hu : AreWords us) (hlen : us.length ≤ 1)
    (h : Quote .backMark backKinds a ts b) (hss : ∀ s ∈ ss, Stretch (kindsOf s))
    {all : List (List Token)} (hall : all.flatten = us ++ (a :: (ts ++ (b :: ss.flatten))))
    (hfew : ss.length < all.length) :
    ∃ taken left new, Takes Stretch all taken left ∧ ∀ rest, Beyond rest →
      Builds .argument level (piece :: todo) taken (left.flatten ++ rest) [new] todo := by
  refine builds_piece_marked hu hlen h.first h.last (Or.inr rfl) rfl h.through_back
    (fun _ hm => quotationForecast_back hm) rfl ?_ hss hall hfew
  intro vs hvs
  exact ⟨_, fun rest hk => builds_backQuoted hu h hvs hk⟩

theorem builds_piece_double {ps : List (List Token)} (hu : AreWords us) (hlen : us.length ≤ 1)
    (ha : a.kind = .doubleMark) (hps : ∀ p ∈ ps, Inner (kindsOf p)) (hb : b.kind = .doubleMark)
    (hss : ∀ s ∈ ss, Stretch (kindsOf s)) {all : List (List Token)}
    (hall : all.flatten = us ++ (a :: (ps.flatten ++ (b :: ss.flatten))))
    (hfew : ss.length < all.length) :
    ∃ taken left new, Takes Stretch all taken left ∧ ∀ rest, Beyond rest →
      Builds .argument level (piece :: todo) taken (left.flatten ++ rest) [new] todo := by
  have hinner : ∀ p ∈ ps.map kindsOf, Inner p := by
    intro p hp
    obtain ⟨x, hx, rfl⟩ := List.mem_map.mp hp
    exact hps x hx
  have hthrough := Outlook.through_inners hinner .main
  rw [← kindsOf_flatten] at hthrough
  refine builds_piece_marked hu hlen ha hb (Or.inl rfl) rfl hthrough
    (fun _ hm => quotationForecast_double hm) rfl ?_ hss hall hfew
  intro vs hvs
  exact builds_doubleQuoted hu ha hps hb hvs

/-! The trees are known where no words have to be looked for. -/

theorem builds_piece_backQuoted {vs : List Token} (hu : AreWords us) (hlen : us.length ≤ 1)
    (h : Quote .backMark backKinds a ts b) (hv : AreWords vs)
    (hk : kindAt (kindsOf rest) 0 ≠ .word) :
    Builds .argument level (piece :: todo) (us ++ (a :: (ts ++ (b :: vs)))) rest
      [.node .quoted [.node .backQuoted
        (us.map .leaf ++ (.leaf a :: (ts.map .leaf ++ (.leaf b :: vs.map .leaf))))]] todo :=
  builds_piece_around hu hlen h.first h.last (Or.inr rfl) rfl h.through_back
    (fun _ hm => quotationForecast_back hm) rfl (builds_backQuoted hu h hv hk)

theorem builds_piece_doubleQuoted {vs : List Token} (hu : AreWords us) (hlen : us.length ≤ 1)
    (h : Quote .doubleMark doubleKinds a ts b) (hv : AreWords vs)
    (hk : kindAt (kindsOf rest) 0 ≠ .word) :
    Builds .argument level (piece :: todo) (us ++ (a :: (ts ++ (b :: vs)))) rest
      [.node .quoted [.node .doubleQuoted
        (us.map .leaf ++ (.leaf a :: (ts.map .leaf ++ (.leaf b :: vs.map .leaf))))]] todo := by
  have hinner : ∀ p ∈ (kindsOf ts).map ([·]), Inner p := by
    intro p hp
    obtain ⟨k, hk, rfl⟩ := List.mem_map.mp hp
    obtain ⟨t, ht, rfl⟩ := List.mem_map.mp hk
    exact .plain (h.inner t ht)
  have hthrough := Outlook.through_inners hinner .main
  rw [← List.flatMap_def, List.flatMap_singleton'] at hthrough
  exact builds_piece_around hu hlen h.first h.last (Or.inl rfl) rfl hthrough
    (fun _ hm => quotationForecast_double hm) rfl (builds_doubleQuoted_plain hu h hv hk)

/-- The tokens of a word or of a quotation without the words beside it. -/
inductive StretchOf : List Token → Prop
  | word {t : Token} (h : t.kind = .word) : StretchOf [t]
  | single {a b : Token} {ts : List Token} (h : Quote .singleMark singleKinds a ts b) :
      StretchOf (a :: (ts ++ [b]))
  | back {a b : Token} {ts : List Token} (h : Quote .backMark backKinds a ts b) :
      StretchOf (a :: (ts ++ [b]))
  | double {a b : Token} {ps : List (List Token)} (ha : a.kind = .doubleMark)
      (h : ∀ p ∈ ps, Inner (kindsOf p)) (hb : b.kind = .doubleMark) :
      StretchOf (a :: (ps.flatten ++ [b]))

theorem stretchOf (h : Stretch (kindsOf ts)) : StretchOf ts := by
  generalize hq : kindsOf ts = q at h
  cases h with
  | word =>
      obtain ⟨t, rfl, ht⟩ := kindsOf_eq_singleton hq
      exact .word ht
  | single hin =>
      obtain ⟨a, us, b, rfl, h⟩ := exists_quote hq hin
      exact .single h
  | back hin =>
      obtain ⟨a, us, b, rfl, h⟩ := exists_quote hq hin
      exact .back h
  | double hps =>
      obtain ⟨a, us, b, rfl, ha, hus, hb⟩ := exists_marks hq
      obtain ⟨pss, rfl, rfl⟩ := kindsOf_eq_flatten hus
      exact .double ha (fun p hp => hps _ (List.mem_map_of_mem hp)) hb

/-- One piece of an argument is read, with the words beside it if it is a quotation. -/
theorem builds_piece {s : List Token} (h : ∀ x ∈ s :: ss, Stretch (kindsOf x)) :
    ∃ taken left new, Takes Stretch (s :: ss) taken left ∧ ∀ rest, Beyond rest →
      Builds .argument level (piece :: todo) taken (left.flatten ++ rest) [new] todo := by
  have hss : ∀ x ∈ ss, Stretch (kindsOf x) := fun x hx => h x (by simp [hx])
  have hnone : AreWords [] := by simp [AreWords]
  cases stretchOf (h s (by simp)) with
  | single hq =>
      exact ⟨_, ss, _, ⟨rfl, by simp, hss⟩, fun rest _ => builds_piece_single hq⟩
  | back hq => exact builds_piece_back hnone (by simp) hq hss (by simp) (by simp)
  | double ha hps hb => exact builds_piece_double hnone (by simp) ha hps hb hss (by simp) (by simp)
  | @word t ht =>
      have hword : AreWords [t] := by simpa [AreWords] using ht
      have halone : (∀ rest, Beyond rest → kindAt (kindsOf (ss.flatten ++ rest)) 0 ≠ .doubleMark ∧
          kindAt (kindsOf (ss.flatten ++ rest)) 0 ≠ .backMark) →
          ∃ taken left new, Takes Stretch ([t] :: ss) taken left ∧ ∀ rest, Beyond rest →
            Builds .argument level (piece :: todo) taken (left.flatten ++ rest) [new] todo :=
        fun hne => ⟨[t], ss, _, ⟨rfl, by simp, hss⟩,
          fun rest hrest => builds_piece_word ht (hne rest hrest)⟩
      cases ss with
      | nil =>
          refine halone fun rest hrest => ⟨fun hk => hrest ?_, fun hk => hrest ?_⟩
          · rw [show kindAt (kindsOf rest) 0 = .doubleMark from hk]
            decide
          · rw [show kindAt (kindsOf rest) 0 = .backMark from hk]
            decide
      | cons u ss =>
          have hrest : ∀ x ∈ ss, Stretch (kindsOf x) := fun x hx => hss x (by simp [hx])
          have hfewer : ∀ v, ss.length < ([t] :: v :: ss).length := by
            intro v
            rw [List.length_cons, List.length_cons]
            omega
          -- What follows the word decides whether it is a piece of its own.
          cases stretchOf (hss u (by simp)) with
          | word hu => exact halone fun rest _ => by simp [hu]
          | single hq => exact halone fun rest _ => by simp [hq.first]
          | back hq =>
              exact builds_piece_back hword (by simp) hq hrest (by simp) (hfewer _)
          | double ha hps hb =>
              exact builds_piece_double hword (by simp) ha hps hb hrest (by simp) (hfewer _)

theorem mem_firstAll_piece {k : Kind} : k ∈ firstAll [piece] ↔ k ∈ starts .argument := by
  cases k <;> decide

theorem kindAt_stretch {s : List Kind} (h : Stretch s) (ks : List Kind) :
    kindAt (s ++ ks) 0 ∈ starts .argument := by
  cases h with
  | word => exact (by decide : Kind.word ∈ starts .argument)
  | single hq => exact (by decide : Kind.singleMark ∈ starts .argument)
  | back hq => exact (by decide : Kind.backMark ∈ starts .argument)
  | double hps => exact (by decide : Kind.doubleMark ∈ starts .argument)

theorem builds_no_piece (h : Beyond rest) :
    Builds .argument level [.again .one [piece]] [] rest [] [] := by
  have hexit : enters .one level [piece] (kindsOf ([] ++ rest)) = false :=
    enters_of_notMem (by rwa [mem_firstAll_piece])
  exact (turns_exit (Or.inr rfl) hexit (Or.inr rfl)).builds .refl

theorem builds_pieces (h : ∀ s ∈ ss, Stretch (kindsOf s)) :
    ∃ new, ∀ rest, Beyond rest →
      Builds .argument level [.again .one [piece]] ss.flatten rest new [] := by
  induction hn : ss.length using Nat.strong_induction_on generalizing ss with
  | _ n ih =>
      cases ss with
      | nil => exact ⟨[], fun rest hrest => builds_no_piece hrest⟩
      | cons s ss =>
          have hround : ∃ taken left new, Takes Stretch (s :: ss) taken left ∧ ∀ rest,
              Beyond rest → Builds .argument level ([piece] ++ [.again .one [piece]]) taken
                (left.flatten ++ rest) [new] [.again .one [piece]] := builds_piece h
          obtain ⟨taken, left, t, htakes, hbuild⟩ := hround
          obtain ⟨new, hmore⟩ := ih left.length (hn ▸ htakes.fewer) htakes.each rfl
          refine ⟨t :: new, fun rest hrest => ?_⟩
          have hfirst : kindAt (kindsOf ((s :: ss).flatten ++ rest)) 0 ∈ firstAll [piece] := by
            rw [List.flatten_cons, List.append_assoc, kindsOf_append, mem_firstAll_piece]
            exact kindAt_stretch (h s (by simp)) _
          have hturn : Turns .argument level [.again .one [piece]]
              (kindsOf ((s :: ss).flatten ++ rest)) ([piece] ++ [.again .one [piece]]) :=
            turns_round (Or.inr rfl) (enters_of_mem rfl hfirst)
          rw [htakes.split] at hturn ⊢
          exact hturn.builds ((hbuild rest hrest).trans (hmore rest hrest))

/-- An argument is read to its end, with one tree whatever follows. -/
theorem builds_argument (h : Argument (kindsOf ts)) :
    ∃ new, ∀ rest, Beyond rest → Builds .argument level (body .argument) ts rest new [] := by
  generalize hq : kindsOf ts = q at h
  obtain ⟨hne, hss⟩ := h
  obtain ⟨sss, rfl, rfl⟩ := kindsOf_eq_flatten hq
  obtain ⟨s, ss, rfl⟩ := List.exists_cons_of_ne_nil (by simpa using hne)
  have hpiece : ∃ taken left new, Takes Stretch (s :: ss) taken left ∧ ∀ rest, Beyond rest →
      Builds .argument level (body .argument) taken (left.flatten ++ rest) [new]
        [.again .one [piece]] :=
    builds_piece fun x hx => hss _ (List.mem_map_of_mem hx)
  obtain ⟨taken, left, t, htakes, hbuild⟩ := hpiece
  obtain ⟨new, hmore⟩ := builds_pieces htakes.each
  refine ⟨t :: new, fun rest hrest => ?_⟩
  rw [htakes.split]
  exact (hbuild rest hrest).trans (hmore rest hrest)

end Arguments

end CommandShell.Parse
