import CommandShell.Proofs.Forecasts

/-! # What the automaton has read

Each outlook of the automaton that reads over a call stands for one sort of beginning of a call. So
where the automaton finds a way a whole call stands there, and where it finds none there is no call
that ends where the automaton has to stop. -/

namespace CommandShell.Parse

open Spelling Grammar CommandShell.Tree

namespace Outlook

/-- Pieces of an argument, or nothing yet. -/
def Stretches (q : List Kind) : Prop :=
  ∃ ss : List (List Kind), (∀ s ∈ ss, Stretch s) ∧ q = ss.flatten

/-- What may come before the first word of a call. -/
def Lead (q : List Kind) : Prop :=
  ∃ (l : List Kind) (hs : List (List Kind)),
    Maybe gapKinds l ∧ (∀ h ∈ hs, Head h) ∧ q = l ++ hs.flatten

/-- A call up to the end of one of its words. -/
def Words (q : List Kind) : Prop :=
  ∃ (l a : List Kind) (ts : List (List Kind)),
    Lead l ∧ Argument a ∧ (∀ t ∈ ts, Tail t) ∧ q = l ++ (a ++ ts.flatten)

/-- A call up to a gap behind one of its words. -/
def Gapped (q : List Kind) : Prop := ∃ w k, Words w ∧ k ∈ gapKinds ∧ q = w ++ [k]

/-- The signs of redirections, those to which nothing can be added among them. -/
def Sign : Bool → List Kind → Prop
  | true, q => q = [.less] ∨ q = [.greater, .greater]
  | false, q => q = [.greater]

/-- Where a redirection of the phase may start. -/
def Site : Phase → List Kind → Prop
  | .head => Lead
  | .main => Gapped

/-- A redirection of the phase up to its argument. -/
def Aimed (p : Phase) (q : List Kind) : Prop :=
  ∃ b full o g, Site p b ∧ Sign full o ∧ Maybe [.blank] g ∧ q = b ++ (o ++ g)

/-- Where an argument of the phase may start. -/
def Before : Phase → List Kind → Prop
  | .head, q => Aimed .head q
  | .main, q => Lead q ∨ Gapped q ∨ Aimed .main q

/-- A call up to some place inside an argument of the phase. -/
def Within (p : Phase) (q : List Kind) : Prop := ∃ b a, Before p b ∧ Stretches a ∧ q = b ++ a

/-- What has been read at an outlook. -/
def Reached : Outlook → List Kind → Prop
  | .start, q => q = []
  | .lead, q => Lead q
  | .operator p full, q => ∃ b o, Site p b ∧ Sign full o ∧ q = b ++ o
  | .operatorGap p, q => Aimed p q
  | .word p, q => ∃ b a, Before p b ∧ Argument a ∧ q = b ++ a
  | .gap, q => Gapped q
  | .single p, q => ∃ b i, Within p b ∧ (∀ k ∈ i, k ∈ singleKinds) ∧ q = b ++ .singleMark :: i
  | .back p, q => ∃ b i, Within p b ∧ (∀ k ∈ i, k ∈ backKinds) ∧ q = b ++ .backMark :: i
  | .double p, q => ∃ (b : List Kind) (is : List (List Kind)),
      Within p b ∧ (∀ i ∈ is, Inner i) ∧ q = b ++ .doubleMark :: is.flatten
  | .doubleBack p, q => ∃ (b : List Kind) (is : List (List Kind)) (j : List Kind),
      Within p b ∧ (∀ i ∈ is, Inner i) ∧ (∀ k ∈ j, k ∈ backKinds) ∧
        q = b ++ .doubleMark :: (is.flatten ++ .backMark :: j)

section Parts

variable {p : Phase} {q a r : List Kind} {k : Kind} {o o' : Outlook}

theorem lead_nil : Lead [] := ⟨[], [], Or.inl rfl, by simp, rfl⟩

theorem Lead.head (h : Lead q) {x : List Kind} (hx : Head x) : Lead (q ++ x) := by
  obtain ⟨l, hs, hl, hh, rfl⟩ := h
  refine ⟨l, hs ++ [x], hl, ?_, by simp⟩
  exact List.forall_mem_append.mpr ⟨hh, by simpa using hx⟩

theorem Words.tail (h : Words q) {x : List Kind} (hx : Tail x) : Words (q ++ x) := by
  obtain ⟨l, a, ts, hl, ha, ht, rfl⟩ := h
  refine ⟨l, a, ts ++ [x], hl, ha, ?_, by simp⟩
  exact List.forall_mem_append.mpr ⟨ht, by simpa using hx⟩

/-- A call ends with a word, or with a gap behind it. -/
theorem Words.call (h : Words q) (hr : Maybe gapKinds r) : Call (q ++ r) := by
  obtain ⟨-, a, ts, ⟨l, hs, hl, hh, rfl⟩, ha, ht, rfl⟩ := h
  simpa using Call.words hl hh ha ht hr

theorem Gapped.atom (h : Gapped q) (ha : Atom a) : Words (q ++ a) := by
  obtain ⟨w, k, hw, hk, rfl⟩ := h
  simpa using hw.tail (.tail hk ha)

theorem stretches_nil : Stretches [] := ⟨[], by simp, rfl⟩

theorem Stretches.append (h : Stretches q) {s : List Kind} (hs : Stretch s) :
    Argument (q ++ s) := by
  obtain ⟨ss, hss, rfl⟩ := h
  have hall : ∀ x ∈ ss ++ [s], Stretch x :=
    List.forall_mem_append.mpr ⟨hss, by simpa using hs⟩
  simpa using Argument.stretches (by simp) hall

theorem Stretches.of_argument (h : Argument q) : Stretches q := by
  obtain ⟨-, hs⟩ := h
  exact ⟨_, hs, rfl⟩

/-- A sign, the blank that may follow it and an argument are a redirection. -/
theorem Sign.redirection {full : Bool} {o g : List Kind} (ho : Sign full o)
    (hg : Maybe [.blank] g) (ha : Argument a) : Redirection (o ++ (g ++ a)) := by
  cases full with
  | false =>
      obtain rfl := ho
      exact Redirection.output (Or.inl rfl) hg ha
  | true =>
      rcases ho with rfl | rfl
      · change Redirection (.less :: (g ++ a))
        exact .input hg ha
      · exact Redirection.output (Or.inr ⟨.greater, by simp, rfl⟩) hg ha

/-- An argument of the head ends a redirection before the first word. -/
theorem Aimed.redirection (h : Aimed p q) (ha : Argument a) :
    ∃ b x, Site p b ∧ Redirection x ∧ q ++ a = b ++ x := by
  obtain ⟨b, full, o, g, hb, ho, hg, rfl⟩ := h
  exact ⟨b, _, hb, ho.redirection hg ha, by simp⟩

/-- An argument of the main part ends a word of the call. -/
theorem Before.words (h : Before .main q) (ha : Argument a) : Words (q ++ a) := by
  rcases h with h | h | h
  · exact ⟨q, a, [], h, ha, by simp, by simp⟩
  · exact h.atom (.argument ha)
  · obtain ⟨b, x, hb, hx, hqa⟩ := h.redirection ha
    rw [hqa]
    exact Gapped.atom hb (.redirection hx)

theorem Within.of_before (h : Before p q) : Within p q := ⟨q, [], h, stretches_nil, by simp⟩

theorem Within.word (h : Within p q) {s : List Kind} (hs : Stretch s) :
    Reached (.word p) (q ++ s) := by
  obtain ⟨b, a, hb, ha, rfl⟩ := h
  exact ⟨b, a ++ s, hb, ha.append hs, by simp⟩

end Parts

/-! ### Steps of the automaton -/

section Steps

variable {p : Phase} {q : List Kind} {k : Kind} {o o' : Outlook}

theorem Within.ofPiece (h : Within p q) (ho : Outlook.ofPiece p k = some o') :
    Reached o' (q ++ [k]) := by
  cases k with
  | word =>
      obtain rfl := Option.some.inj ho
      exact h.word .word
  | singleMark =>
      obtain rfl := Option.some.inj ho
      exact ⟨q, [], h, by simp, rfl⟩
  | doubleMark =>
      obtain rfl := Option.some.inj ho
      exact ⟨q, [], h, by simp, rfl⟩
  | backMark =>
      obtain rfl := Option.some.inj ho
      exact ⟨q, [], h, by simp, rfl⟩
  | _ => cases ho

theorem Site.ofWord (h : Site p q) (hb : Before .main q) (ho : Outlook.ofWord p k = some o') :
    Reached o' (q ++ [k]) := by
  cases k with
  | less =>
      obtain rfl := Option.some.inj ho
      exact ⟨q, _, h, Or.inl rfl, rfl⟩
  | greater =>
      obtain rfl := Option.some.inj ho
      exact ⟨q, _, h, rfl, rfl⟩
  | _ => exact (Within.of_before hb).ofPiece ho

theorem Lead.ofWord (h : Lead q) (ho : Outlook.ofWord .head k = some o') :
    Reached o' (q ++ [k]) :=
  Site.ofWord (p := .head) h (Or.inl h) ho

theorem before_of_aimed (h : Aimed p q) : Before p q := by
  cases p with
  | head => exact h
  | main => exact Or.inr (Or.inr h)

theorem reached_operator {full : Bool} (h : Reached (.operator p full) q)
    (ho : next (.operator p full) k = some o') : Reached o' (q ++ [k]) := by
  obtain ⟨b, s, hb, hs, rfl⟩ := h
  have haimed : Aimed p (b ++ s) := ⟨b, full, s, [], hb, hs, Or.inl rfl, by simp⟩
  rw [next] at ho
  split at ho
  · next hk =>
      obtain ⟨rfl, rfl⟩ := hk
      obtain rfl := Option.some.inj ho
      obtain rfl := hs
      exact ⟨b, [.greater, .greater], hb, Or.inr rfl, by simp⟩
  · split at ho
    · next hk =>
        obtain rfl := Option.some.inj ho
        exact ⟨b, full, s, [k], hb, hs, Or.inr ⟨k, by simp [hk], rfl⟩, by simp⟩
    · exact (Within.of_before (before_of_aimed haimed)).ofPiece ho

theorem reached_word (h : Reached (.word p) q) (ho : next (.word p) k = some o') :
    Reached o' (q ++ [k]) := by
  obtain ⟨b, a, hb, ha, rfl⟩ := h
  rw [next] at ho
  split at ho
  · next hk =>
      have hgap : k ∈ gapKinds := by simpa [gapKinds] using hk
      cases p with
      | main =>
          obtain rfl := Option.some.inj ho
          exact ⟨b ++ a, k, Before.words hb ha, hgap, rfl⟩
      | head =>
          obtain rfl := Option.some.inj ho
          obtain ⟨c, x, hc, hx, hba⟩ := Aimed.redirection hb ha
          rw [hba, List.append_assoc]
          exact Lead.head hc (.head hx hgap)
  · exact Within.ofPiece ⟨b, a, hb, .of_argument ha, rfl⟩ ho

/-- Inside a quotation the next token closes it, or is one more that may stand in it. -/
theorem inQuotes_cases {self closed : Outlook} {mark : Kind} {ks : List Kind}
    (hks : ∀ k, k ≠ mark → k ≠ .lineBreak → k ≠ .finish → k ∈ ks)
    (ho : inQuotes self mark closed k = some o') :
    (k = mark ∧ o' = closed) ∨ (k ∈ ks ∧ o' = self) := by
  rw [inQuotes] at ho
  split at ho
  · next hk => exact Or.inl ⟨hk, (Option.some.inj ho).symm⟩
  · next hk =>
      split at ho
      · cases ho
      · next hend =>
          rw [not_or] at hend
          exact Or.inr ⟨hks k hk hend.1 hend.2, (Option.some.inj ho).symm⟩

theorem forall_mem_concat {ks i : List Kind} (hi : ∀ l ∈ i, l ∈ ks) (hk : k ∈ ks) :
    ∀ l ∈ i ++ [k], l ∈ ks :=
  List.forall_mem_append.mpr ⟨hi, by simpa using hk⟩

theorem reached_single (h : Reached (.single p) q) (ho : next (.single p) k = some o') :
    Reached o' (q ++ [k]) := by
  obtain ⟨b, i, hb, hi, rfl⟩ := h
  have hkinds : ∀ k : Kind, k ≠ .singleMark → k ≠ .lineBreak → k ≠ .finish → k ∈ singleKinds := by
    intro k
    cases k <;> decide
  rcases inQuotes_cases hkinds ho with ⟨rfl, rfl⟩ | ⟨hk, rfl⟩
  · simpa [between] using hb.word (.single hi)
  · exact ⟨b, i ++ [k], hb, forall_mem_concat hi hk, by simp⟩

theorem mem_backKinds {k : Kind} (hm : k ≠ .backMark) (hl : k ≠ .lineBreak) (hf : k ≠ .finish) :
    k ∈ backKinds := by
  revert hm hl hf
  cases k <;> decide

theorem reached_back (h : Reached (.back p) q) (ho : next (.back p) k = some o') :
    Reached o' (q ++ [k]) := by
  obtain ⟨b, i, hb, hi, rfl⟩ := h
  rcases inQuotes_cases (fun _ => mem_backKinds) ho with ⟨rfl, rfl⟩ | ⟨hk, rfl⟩
  · simpa [between] using hb.word (.back hi)
  · exact ⟨b, i ++ [k], hb, forall_mem_concat hi hk, by simp⟩

theorem reached_double (h : Reached (.double p) q) (ho : next (.double p) k = some o') :
    Reached o' (q ++ [k]) := by
  obtain ⟨b, is, hb, hi, rfl⟩ := h
  rw [next] at ho
  split at ho
  · next hk =>
      obtain rfl := Option.some.inj ho
      exact ⟨b, is, [], hb, hi, by simp, by simp [hk]⟩
  · next hback =>
      have hkinds : ∀ l : Kind, l ≠ .doubleMark → l ≠ .lineBreak → l ≠ .finish →
          l ∈ .backMark :: doubleKinds := by
        intro l
        cases l <;> decide
      rcases inQuotes_cases hkinds ho with ⟨rfl, rfl⟩ | ⟨hk, rfl⟩
      · simpa [between] using hb.word (.double hi)
      · have hplain : Inner [k] := .plain ((List.mem_cons.mp hk).resolve_left hback)
        refine ⟨b, is ++ [[k]], hb, ?_, by simp⟩
        exact List.forall_mem_append.mpr ⟨hi, by simpa using hplain⟩

theorem reached_doubleBack (h : Reached (.doubleBack p) q)
    (ho : next (.doubleBack p) k = some o') : Reached o' (q ++ [k]) := by
  obtain ⟨b, is, j, hb, hi, hj, rfl⟩ := h
  rcases inQuotes_cases (fun _ => mem_backKinds) ho with ⟨rfl, rfl⟩ | ⟨hk, rfl⟩
  · refine ⟨b, is ++ [between .backMark j], hb, ?_, by simp [between]⟩
    exact List.forall_mem_append.mpr ⟨hi, by simpa using Inner.back hj⟩
  · exact ⟨b, is, j ++ [k], hb, hi, forall_mem_concat hj hk, by simp⟩

theorem Reached.next (h : Reached o q) (ho : o.next k = some o') : Reached o' (q ++ [k]) := by
  cases o with
  | start =>
      obtain rfl := h
      rw [Outlook.next] at ho
      split at ho
      · next hk =>
          obtain rfl := Option.some.inj ho
          exact ⟨[k], [], Or.inr ⟨k, by simpa [gapKinds] using hk, rfl⟩, by simp, by simp⟩
      · exact lead_nil.ofWord ho
  | lead => exact Lead.ofWord h ho
  | operator p full => exact reached_operator h ho
  | operatorGap p => exact (Within.of_before (before_of_aimed h)).ofPiece ho
  | word p => exact reached_word h ho
  | gap => exact Site.ofWord (p := .main) h (Or.inr (Or.inl h)) ho
  | single p => exact reached_single h ho
  | back p => exact reached_back h ho
  | double p => exact reached_double h ho
  | doubleBack p => exact reached_doubleBack h ho

theorem reached_of_through {q : List Kind} (h : through .start q = some o) : Reached o q := by
  induction q using List.reverseRecOn generalizing o with
  | nil =>
      obtain rfl := Option.some.inj h
      rfl
  | append_singleton q k ih =>
      rw [through_append] at h
      obtain ⟨o₁, hq, hk⟩ := Option.bind_eq_some_iff.mp h
      refine (ih hq).next ?_
      rw [through_cons] at hk
      simpa [through_nil] using hk

/-- Where a call may end, a whole call has been read. -/
theorem call_of_through {q : List Kind} (h : through .start q = some o) (hc : o.complete = true) :
    Call q := by
  have hq := reached_of_through h
  cases o with
  | word p =>
      cases p with
      | head => cases hc
      | main =>
          obtain ⟨b, a, hb, ha, rfl⟩ := hq
          simpa using (Before.words hb ha).call (Or.inl rfl)
  | gap =>
      obtain ⟨w, k, hw, hk, rfl⟩ := hq
      exact hw.call (Or.inr ⟨k, hk, rfl⟩)
  | _ => cases hc

end Steps

end Outlook

theorem exists_through_of_way {o : Outlook} {offset n : Nat} {ks : List Kind}
    (h : callOrPipe o offset ks = .way n) :
    ∃ q rest o', ks = q ++ rest ∧ o.through q = some o' ∧ o'.complete = true ∧
      ∀ k ∈ rest.head?, o'.next k = none := by
  induction ks generalizing o offset with
  | nil =>
      rw [callOrPipe] at h
      split at h
      · next hc => exact ⟨[], [], o, rfl, rfl, hc, by simp⟩
      · cases h
  | cons k ks ih =>
      rw [callOrPipe] at h
      cases hk : o.next k with
      | some o₁ =>
          rw [hk] at h
          obtain ⟨q, rest, o', rfl, hq, hc, hstop⟩ := ih h
          refine ⟨k :: q, rest, o', rfl, ?_, hc, hstop⟩
          rw [Outlook.through_cons, hk]
          exact hq
      | none =>
          rw [hk] at h
          simp only at h
          split at h
          · next hc => exact ⟨[], k :: ks, o, rfl, rfl, hc, by simpa using hk⟩
          · cases h

/-- The kinds start with a whole call, and the next one is not a part of it. -/
def StartsWithCall (ks : List Kind) : Prop := ∃ q rest, ks = q ++ rest ∧ Call q ∧ Stops q rest

/-- The automaton finds a way where a whole call stands, and nowhere else. -/
theorem startsWithCall_iff {ks : List Kind} :
    StartsWithCall ks ↔ ∃ n, callOrPipe .start 0 ks = .way n := by
  constructor
  · rintro ⟨q, rest, rfl, hq, hs⟩
    exact ⟨_, callOrPipe_call hq hs⟩
  · rintro ⟨n, h⟩
    obtain ⟨q, rest, o, rfl, ho, hc, hstop⟩ := exists_through_of_way h
    refine ⟨q, rest, rfl, Outlook.call_of_through ho hc, ?_⟩
    intro o' ho' k hk
    obtain rfl := Option.some.inj (ho.symm.trans ho')
    exact hstop k hk

instance (ks : List Kind) : Decidable (StartsWithCall ks) :=
  match h : callOrPipe .start 0 ks with
  | .way n => isTrue (startsWithCall_iff.mpr ⟨n, h⟩)
  | .stuck _ => isFalse fun hs => by
      obtain ⟨n, hn⟩ := startsWithCall_iff.mp hs
      rw [h] at hn
      cases hn

end CommandShell.Parse
