import CommandShell.Application.Slots
import Mathlib.RingTheory.ZMod.UnitsCyclic

/-! # What a table of slots lists

Numbers that are put into a table one after another are listed each once, whatever slots they find:
there is always a free slot, since a table that fills up is replaced, and the search for it comes to
every slot. Numbers that come again change nothing, so ranges that overlap are put there as one. -/

namespace CommandShell.Slots

variable {s t : Slots} {n : Nat}

@[simp] theorem numbers_blank (size : Nat) : (blank size).numbers = [] := by
  simp [numbers, blank]

@[simp] theorem length_blank (size : Nat) : (blank size).length = size := List.length_replicate

theorem mem_numbers : n ∈ s.numbers ↔ some n ∈ s := by
  simp [numbers]

/-! ### Free slots -/

theorem none_mem_of_lt (h : s.numbers.length < s.length) : none ∈ s := by
  by_contra hfull
  have hall : ∀ t : Slots, none ∉ t → t.numbers.length = t.length := by
    intro t ht
    induction t with
    | nil => rfl
    | cons x t ih =>
        cases x with
        | none => exact absurd List.mem_cons_self ht
        | some k =>
            have hrest := ih fun hmem => ht (List.mem_cons_of_mem _ hmem)
            simpa [numbers] using hrest
  have := hall s hfull
  omega

theorem getElem?_of_seek {rounds rest i j : Nat} (h : s.seek rounds rest i = some j) :
    s[j]? = some none := by
  induction rounds generalizing rest i with
  | zero => cases h
  | succ rounds ih =>
      rw [seek] at h
      split at h
      · next k hk =>
          cases h
          simpa using List.find?_some hk
      · exact ih h

theorem getElem?_slotFor (h : none ∈ s) (n : Nat) : s[s.slotFor n]? = some none := by
  rw [slotFor]
  cases hs : s.seek (13 + s.length) (mark n) (mark n % s.length) with
  | none => exact List.getElem?_idxOf h
  | some j => exact getElem?_of_seek hs

/-! ### The rounds of a search -/

/-- Where the next round starts once nothing is left of a mark. -/
def after (size i : Nat) : Nat := (5 * i + 1) % size

/-- Four times a slot and one more is multiplied by five from round to round. -/
theorem iterate_after (k m i : Nat) :
    ((4 * (after (2 ^ k))^[m] i + 1 : Nat) : ZMod (2 ^ (k + 2))) = 5 ^ m * (4 * i + 1 : Nat) := by
  have hstep : ∀ i, ((4 * after (2 ^ k) i + 1 : Nat) : ZMod (2 ^ (k + 2))) =
      5 * (4 * i + 1 : Nat) := by
    intro i
    have hmod : 4 * after (2 ^ k) i = 4 * (5 * i + 1) % 2 ^ (k + 2) := by
      rw [after, ← Nat.mul_mod_mul_left, pow_add, Nat.mul_comm (2 ^ k)]
      rfl
    rw [hmod, Nat.cast_add, ZMod.natCast_mod]
    push_cast
    ring
  induction m with
  | zero => simp
  | succ m ih =>
      rw [Function.iterate_succ_apply', hstep, ih, pow_succ']
      ring

/-- The rounds come to every slot: five has the order `2 ^ k` modulo `2 ^ (k + 2)`, so they come to
none twice before. -/
theorem exists_iterate_after {k i j : Nat} (hi : i < 2 ^ k) (hj : j < 2 ^ k) :
    ∃ m < 2 ^ k, (after (2 ^ k))^[m] i = j := by
  have hlt : ∀ m, (after (2 ^ k))^[m] i < 2 ^ k := by
    intro m
    cases m with
    | zero => exact hi
    | succ m =>
        rw [Function.iterate_succ_apply']
        exact Nat.mod_lt _ (Nat.two_pow_pos k)
  have hunit : IsUnit ((4 * i + 1 : Nat) : ZMod (2 ^ (k + 2))) := by
    rw [ZMod.isUnit_iff_coprime]
    refine Nat.Coprime.pow_right _ ?_
    exact Nat.coprime_two_right.mpr ⟨2 * i, by ring⟩
  have hinj : Function.Injective fun m : Fin (2 ^ k) =>
      (⟨(after (2 ^ k))^[m] i, hlt m⟩ : Fin (2 ^ k)) := by
    intro m m' heq
    have hpow := iterate_after k m i
    rw [Fin.mk.inj heq, iterate_after, hunit.mul_left_inj] at hpow
    have hbelow : ∀ m : Fin (2 ^ k), m.val ∈ Set.Iio (orderOf (5 : ZMod (2 ^ (k + 2)))) := by
      intro m
      rw [ZMod.orderOf_five]
      exact m.isLt
    exact Fin.ext (pow_injOn_Iio_orderOf (hbelow m) (hbelow m') hpow.symm)
  obtain ⟨m, hm⟩ := Finite.injective_iff_surjective.mp hinj ⟨j, hj⟩
  exact ⟨m, m.isLt, Fin.mk.inj hm⟩

theorem self_mem_tried (size i : Nat) : i ∈ tried size i := by
  rw [tried]
  split <;> simp [List.mem_range'_1]

theorem seek_succ_ne_none {rounds rest i : Nat}
    (h : s[i]? = some none ∨
      s.seek rounds (rest / 32) ((5 * i + 1 + rest / 32) % s.length) ≠ none) :
    s.seek (rounds + 1) rest i ≠ none := by
  rw [seek]
  split
  · simp
  · next hnone =>
      refine h.resolve_left fun hfree => ?_
      simpa [hfree] using List.find?_eq_none.mp hnone i (self_mem_tried _ i)

theorem seek_ne_none_of_iterate {m rounds i : Nat} (hm : m < rounds)
    (h : s[(after s.length)^[m] i]? = some none) : s.seek rounds 0 i ≠ none := by
  induction m generalizing rounds i with
  | zero =>
      obtain ⟨rounds, rfl⟩ := Nat.exists_eq_add_of_lt hm
      exact seek_succ_ne_none (Or.inl h)
  | succ m ih =>
      obtain ⟨rounds, rfl⟩ := Nat.exists_eq_add_of_lt hm
      exact seek_succ_ne_none (Or.inr (ih (by omega) h))

theorem seek_ne_none_of_rest {rounds : Nat} (h : ∀ i < s.length, s.seek rounds 0 i ≠ none)
    {first rest i : Nat} (hrest : rest < 32 ^ first) (hi : i < s.length) :
    s.seek (first + rounds) rest i ≠ none := by
  induction first generalizing rest i with
  | zero =>
      obtain rfl : rest = 0 := by simpa using hrest
      rw [Nat.zero_add]
      exact h i hi
  | succ first ih =>
      rw [Nat.add_right_comm]
      refine seek_succ_ne_none (Or.inr (ih ?_ (Nat.mod_lt _ (by omega))))
      exact Nat.div_lt_of_lt_mul (by rwa [pow_succ'] at hrest)

/-- In a table whose size is a power of two, the search comes to a free slot if there is one. -/
theorem seek_eq_slotFor {k : Nat} (hsize : s.length = 2 ^ k) (h : none ∈ s) (n : Nat) :
    s.seek (13 + s.length) (mark n) (mark n % s.length) = some (s.slotFor n) := by
  have hfound : s.seek (13 + s.length) (mark n) (mark n % s.length) ≠ none := by
    have hpos : 0 < s.length := List.length_pos_of_mem h
    refine seek_ne_none_of_rest (fun i hi => ?_) ?_ (Nat.mod_lt _ hpos)
    · obtain ⟨j, hj, hfree⟩ := List.mem_iff_getElem.mp h
      rw [hsize] at hi hj
      obtain ⟨m, hm, rfl⟩ := exists_iterate_after hi hj
      rw [← hsize] at hm
      refine seek_ne_none_of_iterate hm ?_
      rw [hsize]
      exact List.getElem?_eq_some_iff.mpr ⟨_, hfree⟩
    · exact Nat.lt_trans (Nat.mod_lt n (by decide)) (by decide)
  obtain ⟨j, hj⟩ := Option.ne_none_iff_exists'.mp hfound
  rw [slotFor, hj, Option.getD_some]

/-! ### Putting numbers into slots -/

theorem numbers_set {i : Nat} (h : s[i]? = some none) (n : Nat) :
    (numbers (s.set i (some n))).Perm (n :: s.numbers) := by
  induction s generalizing i with
  | nil => cases h
  | cons x s ih =>
      cases i with
      | zero =>
          obtain rfl : x = none := by simpa using h
          exact List.Perm.refl _
      | succ i =>
          have hrest := ih (i := i) (by simpa using h)
          cases x with
          | none => exact hrest
          | some k => exact (hrest.cons k).trans (List.Perm.swap n k _)

theorem length_place (s : Slots) (n : Nat) : (s.place n).length = s.length := List.length_set

theorem length_foldl_place (s : Slots) (ns : List Nat) : (ns.foldl place s).length = s.length := by
  induction ns generalizing s with
  | nil => rfl
  | cons n ns ih => exact (ih (s.place n)).trans (length_place s n)

theorem numbers_place (h : s.numbers.length < s.length) (n : Nat) :
    (s.place n).numbers.Perm (n :: s.numbers) :=
  numbers_set (getElem?_slotFor (none_mem_of_lt h) n) n

/-- Into a table that is large enough many numbers can be put. -/
theorem numbers_foldl_place {ns : List Nat} (h : s.numbers.length + ns.length ≤ s.length) :
    (ns.foldl place s).numbers.Perm (ns ++ s.numbers) := by
  induction ns generalizing s with
  | nil => exact List.Perm.refl _
  | cons n ns ih =>
      rw [List.length_cons] at h
      have hplaced := numbers_place (s := s) (by omega) n
      have hlength := hplaced.length_eq
      rw [List.length_cons] at hlength
      have hrest := ih (s := s.place n) (by rw [length_place]; omega)
      exact hrest.trans ((hplaced.append_left ns).trans List.perm_middle)

/-! ### Larger tables -/

theorem lt_sizeFor (used : Nat) : 2 * used < sizeFor used := by
  have hlt : ∀ m, m < Nat.pow 2 (Nat.log2 m + 1) := fun m => Nat.lt_log2_self
  rw [sizeFor]
  split
  · exact hlt _
  · have := hlt (4 * used)
    omega

theorem isRoomy_iff : s.isRoomy = true ↔ 5 * s.numbers.length < 3 * (s.length - 1) := by
  simp [isRoomy]

theorem lt_length_of_isRoomy (h : s.isRoomy = true) : s.numbers.length < s.length := by
  have := isRoomy_iff.mp h
  omega

theorem length_grow (s : Slots) : s.grow.length = sizeFor s.numbers.length :=
  (length_foldl_place _ _).trans (length_blank _)

theorem numbers_grow (s : Slots) :
    s.grow.numbers.Perm s.numbers ∧ (s.numbers ≠ [] → s.grow.isRoomy = true) := by
  have hsize := lt_sizeFor s.numbers.length
  have hfits : (blank (sizeFor s.numbers.length)).numbers.length + s.numbers.length ≤
      (blank (sizeFor s.numbers.length)).length := by
    rw [numbers_blank, length_blank, List.length_nil]
    omega
  have hperm : s.grow.numbers.Perm s.numbers := by
    have := numbers_foldl_place hfits
    rwa [numbers_blank, List.append_nil] at this
  refine ⟨hperm, fun hne => ?_⟩
  have hpos := List.length_pos_of_ne_nil hne
  rw [isRoomy_iff, hperm.length_eq, length_grow]
  omega

/-- What one more number does to a table: if it was there, nothing. -/
theorem numbers_add (h : s.isRoomy = true) (n : Nat) :
    (s.add n).isRoomy = true ∧
      (n ∈ s.numbers → s.add n = s) ∧
      (n ∉ s.numbers → (s.add n).numbers.Perm (n :: s.numbers)) := by
  unfold add
  split
  · next hn =>
      have hmem : n ∈ s.numbers := mem_numbers.mpr (List.contains_iff_mem.mp hn)
      exact ⟨h, fun _ => rfl, fun hno => absurd hmem hno⟩
  · next hn =>
      have hnot : n ∉ s.numbers := fun hmem => hn (List.contains_iff_mem.mpr (mem_numbers.mp hmem))
      have hplaced := numbers_place (lt_length_of_isRoomy h) n
      split
      · next hroomy => exact ⟨hroomy, fun hmem => absurd hmem hnot, fun _ => hplaced⟩
      · have hne : (s.place n).numbers ≠ [] := fun hnil => by
          rw [hnil] at hplaced
          exact absurd hplaced.length_eq (by simp)
        obtain ⟨hgrown, hroomy⟩ := numbers_grow (s.place n)
        exact ⟨hroomy hne, fun hmem => absurd hmem hnot, fun _ => hgrown.trans hplaced⟩

/-! ### One number after another -/

theorem isRoomy_foldl_add (h : s.isRoomy = true) (ns : List Nat) :
    (ns.foldl add s).isRoomy = true ∧ ∀ k, k ∈ (ns.foldl add s).numbers ↔ k ∈ ns ∨ k ∈ s.numbers := by
  induction ns generalizing s with
  | nil => exact ⟨h, fun k => by simp⟩
  | cons n ns ih =>
      obtain ⟨hroomy, hthere, hnew⟩ := numbers_add h n
      obtain ⟨hrest, hmem⟩ := ih hroomy
      refine ⟨hrest, fun k => (hmem k).trans ?_⟩
      have hadd : k ∈ (s.add n).numbers ↔ k = n ∨ k ∈ s.numbers := by
        by_cases hn : n ∈ s.numbers
        · rw [hthere hn]
          exact ⟨Or.inr, fun hk => hk.elim (fun hkn => hkn ▸ hn) id⟩
        · rw [(hnew hn).mem_iff, List.mem_cons]
      rw [hadd, List.mem_cons, or_left_comm, or_assoc]

theorem nodup_foldl_add (h : s.isRoomy = true) (hs : s.numbers.Nodup) (ns : List Nat) :
    (ns.foldl add s).numbers.Nodup := by
  induction ns generalizing s with
  | nil => exact hs
  | cons n ns ih =>
      obtain ⟨hroomy, hthere, hnew⟩ := numbers_add h n
      refine ih hroomy ?_
      by_cases hn : n ∈ s.numbers
      · rwa [hthere hn]
      · exact (hnew hn).nodup_iff.mpr (List.nodup_cons.mpr ⟨hn, hs⟩)

theorem isRoomy_ofList (ns : List Nat) : (ofList ns).isRoomy = true :=
  (isRoomy_foldl_add (by decide) ns).1

theorem mem_ofList {ns : List Nat} : n ∈ (ofList ns).numbers ↔ n ∈ ns :=
  ((isRoomy_foldl_add (by decide) ns).2 n).trans (by simp)

theorem nodup_ofList (ns : List Nat) : (ofList ns).numbers.Nodup :=
  nodup_foldl_add (by decide) (by simp) ns

theorem exists_length_foldl_add {k : Nat} (hs : s.length = 2 ^ k) (ns : List Nat) :
    ∃ k, (ns.foldl add s).length = 2 ^ k := by
  induction ns generalizing s k with
  | nil => exact ⟨k, hs⟩
  | cons n ns ih =>
      have hsize : ∃ k, (s.add n).length = 2 ^ k := by
        unfold add
        split
        · exact ⟨k, hs⟩
        · split
          · exact ⟨k, (length_place s n).trans hs⟩
          · exact ⟨_, length_grow _⟩
      obtain ⟨k, hk⟩ := hsize
      exact ih hk

/-- The search for a slot never runs out of rounds. -/
theorem seek_ofList (ns : List Nat) (n : Nat) :
    (ofList ns).seek (13 + (ofList ns).length) (mark n) (mark n % (ofList ns).length) =
      some ((ofList ns).slotFor n) := by
  obtain ⟨k, hk⟩ := exists_length_foldl_add (s := blank 8) (k := 3) rfl ns
  exact seek_eq_slotFor hk (none_mem_of_lt (lt_length_of_isRoomy (isRoomy_ofList ns))) n

/-- Numbers that come again change nothing. -/
theorem foldl_add_of_mem (h : s.isRoomy = true) {ns : List Nat} (hs : ∀ n ∈ ns, n ∈ s.numbers) :
    ns.foldl add s = s := by
  induction ns with
  | nil => rfl
  | cons n ns ih =>
      rw [List.foldl_cons, (numbers_add h n).2.1 (hs n (by simp))]
      exact ih fun k hk => hs k (by simp [hk])

theorem ofList_append (ms ns : List Nat) : ofList (ms ++ ns) = ns.foldl add (ofList ms) :=
  List.foldl_append

theorem ofList_append_of_subset {ms ns : List Nat} (h : ∀ n ∈ ns, n ∈ ms) :
    ofList (ms ++ ns) = ofList ms := by
  rw [ofList_append]
  exact foldl_add_of_mem (isRoomy_ofList ms) fun n hn => mem_ofList.mpr (h n hn)

theorem ofList_append_congr {ms ms' : List Nat} (h : ofList ms = ofList ms') (ns : List Nat) :
    ofList (ms ++ ns) = ofList (ms' ++ ns) := by
  rw [ofList_append, ofList_append, h]

/-! ### Ranges -/

theorem drop_range (c a : Nat) : (List.range c).drop a = List.range' a (c - a) := by
  rw [List.range_eq_range', List.drop_range', Nat.zero_add, Nat.mul_one]

theorem mem_drop_range {c a i : Nat} : i ∈ (List.range c).drop a ↔ a ≤ i ∧ i < c := by
  rw [drop_range, List.mem_range'_1]
  omega

theorem drop_range_append {a c d : Nat} (hac : a ≤ c) (hcd : c ≤ d) :
    (List.range c).drop a ++ (List.range d).drop c = (List.range d).drop a := by
  have happend := @List.range'_append_1 a (c - a) (d - c)
  rw [Nat.add_sub_cancel' hac, Nat.add_comm, Nat.sub_add_sub_cancel hcd hac] at happend
  rw [drop_range, drop_range, drop_range, happend]

/-- A range goes on with one that starts within it. -/
theorem ofList_range_append (ms : List Nat) {a c d l : Nat} (ha : a ≤ l) (hl : l ≤ c ∨ l = a) :
    ofList (ms ++ (List.range c).drop a ++ (List.range d).drop l) =
      ofList (ms ++ (List.range (max c d)).drop a) := by
  have hthere : ∀ e ≤ c, ofList (ms ++ (List.range c).drop a ++ (List.range e).drop l) =
      ofList (ms ++ (List.range c).drop a) := by
    intro e he
    refine ofList_append_of_subset fun n hn => List.mem_append_right _ ?_
    rw [mem_drop_range] at hn ⊢
    omega
  rcases Nat.le_total d c with hdc | hcd
  · rw [Nat.max_eq_left hdc, hthere d hdc]
  · rw [Nat.max_eq_right hcd]
    rcases Nat.lt_or_ge c l with hcl | hlc
    · obtain rfl : l = a := hl.resolve_left (Nat.not_le.mpr hcl)
      rw [List.drop_eq_nil_of_le (by rw [List.length_range]; omega), List.append_nil]
    · -- The part of the second range up to the end of the first is there already.
      rw [← drop_range_append hlc hcd, ← List.append_assoc, ofList_append_congr (hthere c le_rfl),
        List.append_assoc, drop_range_append (Nat.le_trans ha hlc) hcd]

end CommandShell.Slots
