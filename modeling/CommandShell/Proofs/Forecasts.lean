import CommandShell.Proofs.Spelling
import CommandShell.Parse.Forecast

/-! # What the forecasts see

The automaton that reads over a call comes through every call that is spelled as the grammar says,
and at its end it knows whether a gap came last. -/

namespace CommandShell.Parse

open Spelling Grammar CommandShell.Tree

namespace Outlook

/-- Read over the kinds. -/
def through (o : Outlook) (q : List Kind) : Option Outlook := q.foldlM next o

theorem through_nil (o : Outlook) : o.through [] = some o := rfl

theorem through_cons (o : Outlook) (k : Kind) (q : List Kind) :
    o.through (k :: q) = (o.next k).bind fun o' => o'.through q := rfl

theorem through_append (o : Outlook) (p q : List Kind) :
    o.through (p ++ q) = (o.through p).bind fun o' => o'.through q := List.foldlM_append

theorem through_append_of {o o' : Outlook} {p : List Kind} (h : o.through p = some o')
    (q : List Kind) :
    o.through (p ++ q) = o'.through q := by
  rw [through_append, h]
  rfl

/-- Inside a quotation only the closing mark matters. -/
theorem through_inQuotes {o closed : Outlook} {close : Kind}
    (ho : ∀ k, o.next k = inQuotes o close closed k) {q : List Kind}
    (hq : ∀ k ∈ q, k ≠ close ∧ k ≠ .lineBreak ∧ k ≠ .finish) :
    o.through (q ++ [close]) = some closed := by
  induction q with
  | nil => simp [through_cons, through_nil, ho, inQuotes]
  | cons k q ih =>
      obtain ⟨hc, hl, hf⟩ := hq k (by simp)
      rw [List.cons_append, through_cons, ho]
      simpa [inQuotes, hc, hl, hf] using ih fun l hl => hq l (by simp [hl])

/-- A piece of a word of the phase may start here. -/
def Opens (o : Outlook) (p : Phase) : Prop := ∀ k ∈ starts .argument, o.next k = ofPiece p k

theorem opens_start : Opens .start .main := by
  unfold Opens
  decide

theorem opens_lead : Opens .lead .main := by
  unfold Opens
  decide

theorem opens_gap : Opens .gap .main := by
  unfold Opens
  decide

theorem opens_word (p : Phase) : Opens (.word p) p := by
  unfold Opens
  cases p <;> decide

theorem opens_operator (p : Phase) (full : Bool) : Opens (.operator p full) p := by
  unfold Opens
  cases p <;> cases full <;> decide

theorem opens_operatorGap (p : Phase) : Opens (.operatorGap p) p := by
  unfold Opens
  cases p <;> decide

section Spelled

variable {o : Outlook} {p : Phase} {q : List Kind}

theorem through_back (h : ∀ k ∈ q, k ∈ backKinds) {o closed : Outlook}
    (ho : ∀ k, o.next k = inQuotes o .backMark closed k) :
    o.through (q ++ [.backMark]) = some closed := by
  refine through_inQuotes ho fun k hk => ?_
  have hmem := h k hk
  revert hmem
  cases k <;> decide

theorem through_inner (h : Inner q) (p : Phase) : through (.double p) q = some (.double p) := by
  cases h with
  | @plain k hk =>
      revert hk
      cases k <;> cases p <;> decide
  | back hq =>
      rw [between, through_cons]
      exact through_back hq fun k => rfl

theorem through_inners {ps : List (List Kind)} (h : ∀ q ∈ ps, Inner q) (p : Phase) :
    through (.double p) (ps.flatten ++ [.doubleMark]) = some (.word p) := by
  induction ps with
  | nil => cases p <;> rfl
  | cons q ps ih =>
      rw [List.flatten_cons, List.append_assoc, through_append_of (through_inner (h q (by simp)) p)]
      exact ih fun x hx => h x (by simp [hx])

theorem through_stretch (h : Stretch q) (ho : Opens o p) : o.through q = some (.word p) := by
  cases h with
  | word => rw [through_cons, ho _ (by decide)]; rfl
  | @single q h =>
      rw [between, through_cons, ho _ (by decide)]
      refine through_inQuotes (fun k => rfl) fun k hk => ?_
      have hmem := h k hk
      revert hmem
      cases k <;> decide
  | back h =>
      rw [between, through_cons, ho _ (by decide)]
      exact through_back h fun k => rfl
  | double h =>
      rw [between, through_cons, ho _ (by decide)]
      exact through_inners h p

theorem through_stretches {ss : List (List Kind)} (h : ∀ s ∈ ss, Stretch s) (p : Phase) :
    through (.word p) ss.flatten = some (.word p) := by
  induction ss with
  | nil => rfl
  | cons s ss ih =>
      rw [List.flatten_cons, through_append_of (through_stretch (h s (by simp)) (opens_word p))]
      exact ih fun x hx => h x (by simp [hx])

theorem through_argument (h : Argument q) (ho : Opens o p) : o.through q = some (.word p) := by
  obtain ⟨hne, h⟩ := h
  obtain ⟨s, ss, rfl⟩ := List.exists_cons_of_ne_nil hne
  rw [List.flatten_cons, through_append_of (through_stretch (h s (by simp)) ho)]
  exact through_stretches (fun x hx => h x (by simp [hx])) p

/-- After the sign of a redirection and the blank that may follow it. -/
theorem through_target {g a : List Kind} (hg : Maybe [.blank] g) (ha : Argument a) (p : Phase)
    (full : Bool) : through (.operator p full) (g ++ a) = some (.word p) := by
  rcases hg with rfl | ⟨k, hk, rfl⟩
  · exact through_argument ha (opens_operator p full)
  · rw [List.mem_singleton.mp hk]
    have hgap : through (.operator p full) [.blank] = some (.operatorGap p) := by
      cases full <;> rfl
    rw [through_append_of hgap]
    exact through_argument ha (opens_operatorGap p)

/-- A redirection of the phase may start here. -/
def Redirects (o : Outlook) (p : Phase) : Prop :=
  o.next .less = some (.operator p true) ∧ o.next .greater = some (.operator p false)

theorem through_redirection (h : Redirection q) (ho : Redirects o p) :
    o.through q = some (.word p) := by
  cases h with
  | input hg ha =>
      rw [through_cons, ho.1]
      exact through_target hg ha p true
  | output hm hg ha =>
      rw [through_cons, ho.2]
      rcases hm with rfl | ⟨k, hk, rfl⟩
      · exact through_target hg ha p false
      · rw [List.mem_singleton.mp hk]
        have hfull : through (.operator p false) [.greater] = some (.operator p true) := rfl
        rw [Option.bind_some, through_append_of hfull]
        exact through_target hg ha p true

theorem next_word_gap {k : Kind} (hk : k ∈ gapKinds) (p : Phase) :
    next (.word p) k = some (if p = .main then .gap else .lead) := by
  revert hk
  cases k <;> cases p <;> decide

theorem through_head (h : Head q) (ho : Redirects o .head) : o.through q = some .lead := by
  obtain ⟨hr, hk⟩ := h
  rw [through_append_of (through_redirection hr ho), through_cons, next_word_gap hk]
  rfl

theorem through_tail (h : Tail q) : through (.word .main) q = some (.word .main) := by
  obtain ⟨hk, ha⟩ := h
  rw [through_cons, next_word_gap hk]
  cases ha with
  | redirection hr => exact through_redirection hr ⟨rfl, rfl⟩
  | argument ha => exact through_argument ha opens_gap

/-- At the start of a call or after what comes before its first word. -/
def AtHead (o : Outlook) : Prop := o = .start ∨ o = .lead

theorem AtHead.redirects (h : AtHead o) : Redirects o .head := by
  rcases h with rfl | rfl <;> exact ⟨rfl, rfl⟩

theorem AtHead.opens (h : AtHead o) : Opens o .main := by
  rcases h with rfl | rfl
  · exact opens_start
  · exact opens_lead

theorem through_heads {hs : List (List Kind)} (h : ∀ q ∈ hs, Head q) (ho : AtHead o) :
    ∃ o', AtHead o' ∧ o.through hs.flatten = some o' := by
  induction hs generalizing o with
  | nil => exact ⟨o, ho, rfl⟩
  | cons q hs ih =>
      rw [List.flatten_cons, through_append_of (through_head (h q (by simp)) ho.redirects)]
      exact ih (fun x hx => h x (by simp [hx])) (Or.inr rfl)

theorem through_tails {ts : List (List Kind)} (h : ∀ q ∈ ts, Tail q) :
    through (.word .main) ts.flatten = some (.word .main) := by
  induction ts with
  | nil => rfl
  | cons q ts ih =>
      rw [List.flatten_cons, through_append_of (through_tail (h q (by simp)))]
      exact ih fun x hx => h x (by simp [hx])

theorem through_lead (h : Maybe gapKinds q) : ∃ o, AtHead o ∧ through .start q = some o := by
  rcases h with rfl | ⟨k, hk, rfl⟩
  · exact ⟨.start, Or.inl rfl, rfl⟩
  · refine ⟨.lead, Or.inr rfl, ?_⟩
    revert hk
    cases k <;> decide

/-- A call up to the gap that may end it. -/
theorem through_words {l a : List Kind} {hs ts : List (List Kind)} (hl : Maybe gapKinds l)
    (hh : ∀ h ∈ hs, Head h) (ha : Argument a) (ht : ∀ t ∈ ts, Tail t) (q : List Kind) :
    through .start (l ++ (hs.flatten ++ (a ++ (ts.flatten ++ q)))) = through (.word .main) q := by
  obtain ⟨o, ho, hlead⟩ := through_lead hl
  obtain ⟨o', ho', hheads⟩ := through_heads hh ho
  rw [through_append_of hlead, through_append_of hheads,
    through_append_of (through_argument ha ho'.opens), through_append_of (through_tails ht)]

theorem through_gap {k : Kind} (hk : k ∈ gapKinds) : through (.word .main) [k] = some .gap := by
  rw [through_cons, next_word_gap hk]
  rfl

/-- A call comes to an end at a word or at the gap behind it. -/
theorem through_call (h : Call q) :
    ∃ o, through .start q = some o ∧ (o = .word .main ∨ o = .gap) := by
  obtain ⟨hl, hh, ha, ht, hr⟩ := h
  rw [through_words hl hh ha ht]
  rcases hr with rfl | ⟨k, hk, rfl⟩
  · exact ⟨_, rfl, Or.inl rfl⟩
  · exact ⟨_, through_gap hk, Or.inr rfl⟩

end Spelled

theorem gap_of_next {o : Outlook} {k : Kind} (h : o.next k = some .gap) : k ∈ gapKinds := by
  have all : ∀ k ∈ Kind.all, o.next k = some .gap → k ∈ gapKinds := by
    cases o with
    | operator p full => cases p <;> cases full <;> decide
    | start | lead | gap => decide
    | operatorGap p | word p | single p | back p | double p | doubleBack p => cases p <;> decide
  exact all k (Kind.mem_all k) h

theorem not_gap_of_next {o : Outlook} {k : Kind} (h : o.next k = some (.word .main)) :
    k ∉ gapKinds := by
  have all : ∀ k ∈ Kind.all, o.next k = some (.word .main) → k ∉ gapKinds := by
    cases o with
    | operator p full => cases p <;> cases full <;> decide
    | start | lead | gap => decide
    | operatorGap p | word p | single p | back p | double p | doubleBack p => cases p <;> decide
  exact all k (Kind.mem_all k) h

/-- Where a call may end, the last token tells whether it ended with a gap. -/
theorem last_of_through {o : Outlook} {q : List Kind} {k : Kind}
    (h : through .start (q ++ [k]) = some o) :
    (o = .gap → k ∈ gapKinds) ∧ (o = .word .main → k ∉ gapKinds) := by
  rw [through_append] at h
  obtain ⟨o', _, ho⟩ := Option.bind_eq_some_iff.mp h
  replace ho : o'.next k = some o := by
    rw [through_cons] at ho
    simpa [through_nil] using ho
  constructor
  · rintro rfl
    exact gap_of_next ho
  · rintro rfl
    exact not_gap_of_next ho

end Outlook

theorem callOrPipe_append {o o' : Outlook} {q : List Kind} (h : o.through q = some o') (n : Nat)
    (rest : List Kind) : callOrPipe o n (q ++ rest) = callOrPipe o' (n + q.length) rest := by
  induction q generalizing o n with
  | nil =>
      obtain rfl := Option.some.inj h
      rfl
  | cons k q ih =>
      rw [Outlook.through_cons] at h
      obtain ⟨o₁, hk, h⟩ := Option.bind_eq_some_iff.mp h
      rw [List.cons_append, callOrPipe, hk]
      simp only
      rw [ih h, List.length_cons, Nat.add_right_comm, Nat.add_assoc]

/-- The next token cannot be read as a part of the call. -/
def Stops (q rest : List Kind) : Prop :=
  ∀ o, Outlook.start.through q = some o → ∀ k ∈ rest.head?, o.next k = none

theorem callOrPipe_call {q rest : List Kind} (h : Call q) (hs : Stops q rest) :
    callOrPipe .start 0 (q ++ rest) = .way (if rest.head? = some .bar then 0 else 1) := by
  obtain ⟨o, ho, hend⟩ := Outlook.through_call h
  have hc : o.complete = true := by rcases hend with rfl | rfl <;> rfl
  rw [callOrPipe_append ho]
  cases rest with
  | nil => simp [callOrPipe, hc]
  | cons k rest =>
      have hnone := hs o ho k (by simp)
      simp [callOrPipe, hc, hnone]

theorem closes_of_through {o : Outlook} {q : List Kind} (h : o.through q = some (.word .main))
    (rest : List Kind) : closes o (q ++ rest) = true := by
  induction q generalizing o with
  | nil =>
      obtain rfl := Option.some.inj h
      cases rest <;> simp [closes]
  | cons k q ih =>
      rw [Outlook.through_cons] at h
      obtain ⟨o', hk, h⟩ := Option.bind_eq_some_iff.mp h
      rw [List.cons_append, closes]
      split
      · rfl
      · rw [hk]
        exact ih h

end CommandShell.Parse
