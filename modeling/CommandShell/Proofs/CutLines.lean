import CommandShell.Proofs.Filters
import CommandShell.Proofs.PositionLists

/-! # What is cut out of lines

For every list of positions it is said what `cut` leaves of a line and in which order, and for which
lists and lengths of lines these are the characters that the list names, each at its turn. -/

namespace CommandShell.Application

/-! ### Characters by their indices -/

/-- The characters whose indices pass a test, in their order. -/
def keep (p : Nat → Bool) (t : Text) : Text := (t.zipIdx.filter fun x => p x.2).map Prod.fst

/-- The characters at indices, in the order of the indices. -/
def picked (ms : List Nat) (t : Text) : Text := ms.filterMap fun i => t[i]?

section Keep

variable {p q : Nat → Bool} {t : Text}

theorem mem_keep {c : Char} : c ∈ keep p t ↔ ∃ i, p i = true ∧ t[i]? = some c := by
  simp only [keep, List.mem_map, List.mem_filter, Prod.exists, List.mk_mem_zipIdx_iff_getElem?]
  constructor
  · rintro ⟨_, i, ⟨hget, hp⟩, rfl⟩
    exact ⟨i, hp, hget⟩
  · rintro ⟨i, hp, hget⟩
    exact ⟨c, i, ⟨hget, hp⟩, rfl⟩

theorem keep_congr (h : ∀ i < t.length, p i = q i) : keep p t = keep q t := by
  refine congrArg (List.map Prod.fst) (List.filter_congr ?_)
  rintro ⟨c, i⟩ hmem
  exact h i (List.getElem?_eq_some_iff.mp (List.mk_mem_zipIdx_iff_getElem?.mp hmem)).1

theorem keep_concat (p : Nat → Bool) (t : Text) (c : Char) :
    keep p (t ++ [c]) = keep p t ++ if p t.length then [c] else [] := by
  simp only [keep, List.zipIdx_append, List.filter_append, List.map_append,
    List.zipIdx_cons, List.zipIdx_nil, List.filter_cons, List.filter_nil, Nat.zero_add]
  split <;> rfl

theorem keep_from (n : Nat) (t : Text) : keep (fun i => n ≤ i) t = t.drop n := by
  induction t using List.reverseRecOn with
  | nil => simp [keep]
  | append_singleton t c ih =>
      rw [keep_concat, ih, List.drop_append]
      rcases Nat.lt_or_ge t.length n with h | h
      · have hdrop : List.drop (n - t.length) [c] = [] := List.drop_eq_nil_of_le (by simp; omega)
        simp [hdrop, Nat.not_le.mpr h]
      · simp [h, Nat.sub_eq_zero_of_le h]

/-- Two tests keep the same of every text of a length if they agree on the indices below it, and
only then: one character that is unlike the others tells them apart. -/
theorem keep_eq_iff {m : Nat} :
    (∀ t : Text, t.length = m → keep p t = keep q t) ↔ ∀ i < m, p i = q i := by
  constructor
  · intro h i hi
    have hmark : ∀ r : Nat → Bool,
        'b' ∈ keep r ((List.replicate m 'a').set i 'b') ↔ r i = true := by
      intro r
      rw [mem_keep]
      constructor
      · rintro ⟨j, hr, hget⟩
        rw [List.getElem?_set] at hget
        split at hget
        · next hij => rwa [hij]
        · simp [List.getElem?_replicate] at hget
      · intro hr
        exact ⟨i, hr, by simp [hi]⟩
    have heq := h ((List.replicate m 'a').set i 'b') (by simp)
    rw [Bool.eq_iff_iff, ← hmark p, ← hmark q, heq]
  · intro h t ht
    exact keep_congr (by rwa [ht])

theorem picked_append {ms : List Nat} (h : ∀ i ∈ ms, i < t.length) (u : Text) :
    picked ms (t ++ u) = picked ms t :=
  List.filterMap_congr fun i hi => List.getElem?_append_left (h i hi)

/-- To keep characters is to pick those whose indices pass, in their order. -/
theorem keep_eq_picked (p : Nat → Bool) (t : Text) :
    keep p t = picked ((List.range t.length).filter p) t := by
  induction t using List.reverseRecOn with
  | nil => rfl
  | append_singleton t c ih =>
      have hbelow : ∀ i ∈ (List.range t.length).filter p, i < t.length := fun i hi =>
        List.mem_range.mp (List.mem_filter.mp hi).1
      have hparts : ∀ ms, picked ((List.range t.length).filter p ++ ms) (t ++ [c]) =
          picked ((List.range t.length).filter p) t ++ picked ms (t ++ [c]) := fun ms =>
        List.filterMap_append.trans (congrArg (· ++ _) (picked_append hbelow [c]))
      rw [keep_concat, ih, List.length_append, List.length_singleton, List.range_succ,
        List.filter_append, hparts]
      cases hp : p t.length with
      | true => simp [picked, hp]
      | false => simp [picked, hp]

theorem picked_map_range {m : Nat} {ms : List Nat} (h : ∀ i ∈ ms, i < m) (f : Nat → Char) :
    picked ms ((List.range m).map f) = ms.map f := by
  rw [← List.filterMap_eq_map, picked]
  exact List.filterMap_congr fun i hi => by simp [h i hi]

/-- Indices below nine pick the same of every text of a length as others do only if they are these,
in the same order: ten characters tell them apart. -/
theorem picked_eq_iff {m : Nat} {ms ns : List Nat} (hms : ∀ i ∈ ms, i < 9 ∧ i < m)
    (hns : ∀ i ∈ ns, i < m) :
    (∀ t : Text, t.length = m → picked ms t = picked ns t) ↔ ms = ns := by
  constructor
  · intro h
    have hcode : ∀ k < 10, (Char.ofNat (97 + k)).toNat - 97 = k := by decide
    have hread : ∀ ks : List Nat,
        (ks.map fun i => Char.ofNat (97 + min i 9)).map (·.toNat - 97) = ks.map (min · 9) := by
      intro ks
      rw [List.map_map]
      exact List.map_congr_left fun i _ => hcode _ (by omega)
    have hself : ∀ ks : List Nat, (∀ i ∈ ks, i < 9) → ks.map (min · 9) = ks := fun ks hks =>
      (List.map_congr_left fun i hi => Nat.min_eq_left (Nat.le_of_lt (hks i hi))).trans
        (List.map_id ks)
    have hsame := h ((List.range m).map fun i => Char.ofNat (97 + min i 9)) (by simp)
    rw [picked_map_range fun i hi => (hms i hi).2, picked_map_range hns] at hsame
    have hmin : ms = ns.map (min · 9) := by
      rw [← hself ms fun i hi => (hms i hi).1, ← hread ms, hsame, hread]
    have hsmall : ∀ i ∈ ns, i < 9 := by
      intro i hi
      have hmem : min i 9 ∈ ms := hmin ▸ List.mem_map_of_mem hi
      have := (hms _ hmem).1
      omega
    exact hmin.trans (hself ns hsmall)
  · rintro rfl t -
    rfl

end Keep

/-! ### Indices -/

namespace Cutting

/-- An index past the end is a fault. -/
theorem pickAll_error {t : Text} {is : List Int} {i : Int} (hi : i ∈ is)
    (h : t.length ≤ i.toNat) : pickAll (.text t) is = .error .textIndex := by
  induction is with
  | nil => cases hi
  | cons j is ih =>
      rw [pickAll, pick]
      cases hget : t[j.toNat]? with
      | none => rfl
      | some c =>
          have hmem : i ∈ is := by
            refine (List.mem_cons.mp hi).resolve_left ?_
            rintro rfl
            simp [List.getElem?_eq_none h] at hget
          simp only [ih hmem]

theorem pickAll_picked {t : Text} {ms : List Nat} (h : ∀ i ∈ ms, i < t.length) :
    pickAll (.text t) (ms.map Int.ofNat) = .ok (picked ms t) := by
  induction ms with
  | nil => rfl
  | cons i ms ih =>
      have hi := List.getElem?_eq_getElem (h i (by simp))
      have hrest := ih fun j hj => h j (by simp [hj])
      simp only [List.map_cons, pickAll, pick, Int.toNat_natCast, Int.ofNat_eq_natCast, hi, hrest,
        picked, List.filterMap_cons, List.singleton_append]

theorem Tells.indices_eq {s : Cutting} {items : List CutItem} (h : s.Tells items) :
    s.indices = (turns (reach items)).map Int.ofNat := by
  rw [indices, h.order, numbers_reach]

end Cutting

/-! ### Lines -/

/-- Is the character with this index named by one of the items? -/
def named (items : List CutItem) (i : Nat) : Bool := items.any (·.names i)

instance (items : List CutItem) (i : Nat) : Decidable (Reached items i) :=
  inferInstanceAs (Decidable (_ ∈ _))

/-- Where a list of positions starts that reaches to the end of the line. -/
def openStart (items : List CutItem) : Nat := (firstStart [] items).getD 0

/-- What is left of a line with its line break. If the last item reaches to the end of the line,
all from the first start on is left. Otherwise the characters are left whose indices are reached,
in the order of these, and no digit may be greater than the length of the line. -/
def carved (items : List CutItem) (line : Text) : Except Fault Text :=
  if endsOpen items then .ok (line.drop (openStart items))
  else if highest (digitsOf items) ≤ line.length then
    .ok (picked (turns (reach items)) line ++ ['\n'])
  else .error .textIndex

section Carved

variable {items : List CutItem}

theorem lt_highest_digitsOf (items : List CutItem) (i : Nat) :
    i < highest (digitsOf items) ↔
      i < highest (digitsOf (leading items)) ∨ i < highest (digitsOf (trailing items)) := by
  rw [← lt_highest_append, digitsOf, digitsOf, digitsOf, ← List.flatMap_append, leading, trailing,
    List.takeWhile_append_dropWhile]

/-- What is reached is below the greatest digit, and the index just below it is reached. -/
theorem reached_lt {i : Nat} (h : Reached items i) : i < highest (digitsOf items) := by
  rw [lt_highest_digitsOf]
  exact (List.mem_append.mp h).imp (fun hlead => (mem_added.mp hlead).2) List.mem_range.mp

theorem base_headD_le {ds : List Nat} {i : Nat} (hlt : i < highest ds) (hle : highest ds ≤ i + 1) :
    base [] (ds.headD 0) ≤ i + 1 := by
  cases ds with
  | nil => simp [highest] at hlt
  | cons d ds =>
      by_contra hd
      have hgreater : i + 1 < highest (d :: ds) :=
        lt_highest_iff.mpr ⟨d, by simp, by simpa [base] using hd⟩
      omega

theorem reached_of_highest {i : Nat} (h : highest (digitsOf items) = i + 1) : Reached items i := by
  rcases (lt_highest_digitsOf items i).mp (by omega) with hlead | htrail
  · have htop := lt_highest_digitsOf items (i + 1)
    exact List.mem_append_left _ (mem_added.mpr ⟨base_headD_le hlead (by omega), hlead⟩)
  · exact List.mem_append_right _ (List.mem_range.mpr htrail)

theorem mem_turns {ms : List Nat} {i : Nat} : i ∈ turns ms ↔ i ∈ ms ∧ i < 9 := by
  have hall : i ∈ [8, 0, 2, 3, 4, 5, 1, 6, 7] ↔ i < 9 := by
    simp only [List.mem_cons, List.not_mem_nil, or_false]
    omega
  rw [turns]
  split
  · rw [List.mem_filter, hall, decide_eq_true_iff, and_comm]
  · rw [ascending, List.mem_filter, List.mem_range, decide_eq_true_iff, and_comm]

theorem mem_turns_reach {i : Nat} : i ∈ turns (reach items) ↔ Reached items i := by
  refine mem_turns.trans (and_iff_left_of_imp fun h => ?_)
  have hlt := reached_lt h
  have hten := highest_digitsOf_lt items
  omega

theorem exists_firstStart (h : endsOpen items = true) : ∃ n, firstStart [] items = some n := by
  obtain ⟨ys, y, rfl⟩ := (List.eq_nil_or_concat items).resolve_left (by
    rintro rfl
    cases h)
  rw [List.concat_eq_append] at h ⊢
  rw [endsOpen_concat] at h
  cases y with
  | onward n =>
      rw [firstStart_concat]
      cases firstStart [] ys <;> exact ⟨_, rfl⟩
  | one | between | upTo => cases h

/-- After a list of positions has been read, a line is cut as the items of the list say. -/
theorem Cutting.Tells.cutLine_eq {s : Cutting} (h : s.Tells items) (line : Text) :
    s.cutLine (.text line) = carved items line := by
  cases hopen : endsOpen items with
  | true =>
      obtain ⟨n, hn⟩ := exists_firstStart hopen
      have hhead := h.starts
      rw [hn] at hhead
      obtain ⟨rest, hstarts⟩ := List.head?_eq_some_iff.mp hhead
      simp [cutLine, carved, h.toEnd, hopen, hstarts, openStart, hn]
  | false =>
      simp only [cutLine, carved, h.toEnd, hopen, h.indices_eq]
      by_cases hfits : highest (digitsOf items) ≤ line.length
      · rw [pickAll_picked fun i hi =>
          Nat.lt_of_lt_of_le (reached_lt (mem_turns_reach.mp hi)) hfits]
        simp [hfits]
      · obtain ⟨i, hi⟩ : ∃ i, highest (digitsOf items) = i + 1 :=
          ⟨highest (digitsOf items) - 1, by omega⟩
        have hpast := List.mem_map_of_mem (f := Int.ofNat)
          (mem_turns_reach.mpr (reached_of_highest hi))
        rw [pickAll_error hpast (by simp; omega)]
        simp [hfits]

/-- The characters that the items name, and a line break. -/
def wanted (items : List CutItem) (t : Text) : Text := keep (named items) t ++ ['\n']

/-- For which lists of positions, and lines of which length without their line break, just the
characters that are named are left: those from the first start on, which must not be behind the line
break, or those that are reached, of which all must be before it. If these are crowded, only a
single one is in order. -/
def Obeyed (items : List CutItem) (m : Nat) : Prop :=
  if endsOpen items then
    openStart items ≤ m ∧ ∀ i < m, named items i = decide (openStart items ≤ i)
  else
    highest (digitsOf items) ≤ m ∧ (∀ i < m, named items i = decide (Reached items i)) ∧
      (Crowded (reach items) → ascending (reach items) = [8])

theorem carved_open_iff (h : endsOpen items = true) (t : Text) :
    carved items (t ++ ['\n']) = .ok (wanted items t) ↔
      openStart items ≤ t.length ∧
        keep (named items) t = keep (fun i => openStart items ≤ i) t := by
  rw [carved, if_pos h, wanted, keep_from, Except.ok.injEq]
  rcases Nat.lt_or_ge t.length (openStart items) with hlt | hle
  · have hdrop : (t ++ ['\n']).drop (openStart items) = [] :=
      List.drop_eq_nil_of_le (by rw [List.length_append, List.length_singleton]; omega)
    have hne : [] ≠ keep (named items) t ++ ['\n'] := by simp
    rw [hdrop]
    exact iff_of_false hne fun h => absurd h.1 (by omega)
  · rw [List.drop_append_of_le_length hle, List.append_left_inj]
    exact ⟨fun heq => ⟨hle, heq.symm⟩, fun h => h.2.symm⟩

theorem carved_closed_iff (h : endsOpen items = false) {t : Text}
    (ht : highest (digitsOf items) ≤ t.length) :
    carved items (t ++ ['\n']) = .ok (wanted items t) ↔
      picked (turns (reach items)) t = picked ((List.range t.length).filter (named items)) t := by
  have hfits : highest (digitsOf items) ≤ (t ++ ['\n']).length := by
    rw [List.length_append]
    omega
  have hbelow : ∀ i ∈ turns (reach items), i < t.length := fun i hi =>
    Nat.lt_of_lt_of_le (reached_lt (mem_turns_reach.mp hi)) ht
  simp only [carved, h, Bool.false_eq_true, if_false, if_pos hfits, picked_append hbelow]
  rw [wanted, Except.ok.injEq, List.append_left_inj, keep_eq_picked]

/-- Crowded indices are listed in order only if there is a single one: the greatest comes first. -/
theorem turns_eq_ascending_iff {ms : List Nat} (h : Crowded ms) :
    turns ms = ascending ms ↔ ascending ms = [8] := by
  have hlast : ascending ms = (List.range 8).filter (· ∈ ms) ++ [8] := by
    rw [ascending, List.range_succ, List.filter_append, List.filter_cons_of_pos (by simp [h.1]),
      List.filter_nil]
  rw [turns, if_pos h, List.filter_cons_of_pos (by simp [h.1])]
  constructor
  · intro heq
    cases hlow : (List.range 8).filter (· ∈ ms) with
    | nil => rw [hlast, hlow, List.nil_append]
    | cons i low =>
        have hi : i ∈ (List.range 8).filter (· ∈ ms) := by rw [hlow]; exact List.mem_cons_self
        have hlt := List.mem_range.mp (List.mem_filter.mp hi).1
        rw [hlast, hlow, List.cons_append] at heq
        have := (List.cons.inj heq).1
        omega
  · intro hsingle
    rw [hsingle]
    refine congrArg _ (List.filter_eq_nil_iff.mpr fun i hi hmem => ?_)
    have hsmall : i < 8 := by
      simp only [List.mem_cons, List.not_mem_nil, or_false] at hi
      omega
    have hasc : i ∈ ascending ms :=
      List.mem_filter.mpr ⟨List.mem_range.mpr (by omega), hmem⟩
    rw [hsingle, List.mem_singleton] at hasc
    omega

/-- Past the greatest index that passes a test, a range adds nothing to what passes it. -/
theorem filter_range {p : Nat → Bool} {n k : Nat} (hnk : n ≤ k) (h : ∀ i, p i = true → i < n) :
    (List.range k).filter p = (List.range n).filter p := by
  obtain ⟨d, rfl⟩ := Nat.exists_eq_add_of_le hnk
  have hnone : ((List.range d).map (n + ·)).filter p = [] := by
    refine List.filter_eq_nil_iff.mpr fun i hi hp => ?_
    obtain ⟨j, -, rfl⟩ := List.mem_map.mp hi
    have := h _ hp
    omega
  rw [List.range_add, List.filter_append, hnone, List.append_nil]

theorem filter_reached {m : Nat} (hm : highest (digitsOf items) ≤ m) :
    (List.range m).filter (fun i => decide (Reached items i)) = ascending (reach items) := by
  have hten := highest_digitsOf_lt items
  have hbelow : ∀ n, highest (digitsOf items) ≤ n →
      ∀ i, decide (Reached items i) = true → i < n := fun n hn i hi =>
    Nat.lt_of_lt_of_le (reached_lt (of_decide_eq_true hi)) hn
  rcases Nat.le_total m 9 with hle | hle
  · exact (filter_range hle (hbelow m hm)).symm
  · exact filter_range hle (hbelow 9 (by omega))

/-- What is reached comes at its turn, and is what the items name. -/
theorem turns_eq_named_iff {m : Nat} (hm : highest (digitsOf items) ≤ m) :
    turns (reach items) = (List.range m).filter (named items) ↔
      (∀ i < m, named items i = decide (Reached items i)) ∧
        (Crowded (reach items) → ascending (reach items) = [8]) := by
  have hnamed (hall : ∀ i < m, named items i = decide (Reached items i)) :
      (List.range m).filter (named items) = ascending (reach items) := by
    rw [← filter_reached hm]
    exact List.filter_congr fun i hi => hall i (List.mem_range.mp hi)
  constructor
  · intro heq
    have hall : ∀ i < m, named items i = decide (Reached items i) := by
      intro i hi
      rw [Bool.eq_iff_iff, decide_eq_true_iff, ← mem_turns_reach, heq, List.mem_filter,
        List.mem_range]
      exact (and_iff_right hi).symm
    refine ⟨hall, fun hcrowded => (turns_eq_ascending_iff hcrowded).mp ?_⟩
    rw [heq, hnamed hall]
  · rintro ⟨hall, hsingle⟩
    rw [hnamed hall]
    by_cases hcrowded : Crowded (reach items)
    · exact (turns_eq_ascending_iff hcrowded).mpr (hsingle hcrowded)
    · rw [turns, if_neg hcrowded]

/-- A digit that is too great for a line makes it fail, or brings in the line break. -/
theorem highest_le_of_carved (h : endsOpen items = false) {t : Text} (ht : '\n' ∉ t)
    (hc : carved items (t ++ ['\n']) = .ok (wanted items t)) :
    highest (digitsOf items) ≤ t.length := by
  have hlength : (t ++ ['\n']).length = t.length + 1 := by simp
  simp only [carved, h, Bool.false_eq_true, if_false, hlength] at hc
  split at hc
  · next hfits =>
      by_contra hgreater
      have hlast : Reached items t.length := reached_of_highest (by omega)
      rw [Except.ok.injEq, wanted, List.append_left_inj] at hc
      have hmem : '\n' ∈ keep (named items) t := by
        rw [← hc]
        exact List.mem_filterMap.mpr ⟨t.length, mem_turns_reach.mpr hlast, by simp⟩
      obtain ⟨i, -, hget⟩ := mem_keep.mp hmem
      exact ht (List.mem_of_getElem? hget)
  · cases hc

/-- Exactly the named characters are left of all lines of a length if and only if the list of
positions is obeyed there. -/
theorem carved_wanted_iff (items : List CutItem) (m : Nat) :
    (∀ t : Text, t.length = m → carved items (t ++ ['\n']) = .ok (wanted items t)) ↔
      Obeyed items m := by
  cases h : endsOpen items with
  | true =>
      simp only [Obeyed, h, if_true, ← keep_eq_iff, carved_open_iff h]
      constructor
      · intro hall
        refine ⟨?_, fun t ht => (hall t ht).2⟩
        have hsome := (hall (List.replicate m 'a') (by simp)).1
        rwa [List.length_replicate] at hsome
      · rintro ⟨hstart, hkeep⟩ t rfl
        exact ⟨hstart, hkeep t rfl⟩
  | false =>
      have hsame (hm : highest (digitsOf items) ≤ m) :
          (∀ t : Text, t.length = m → picked (turns (reach items)) t =
            picked ((List.range m).filter (named items)) t) ↔
              turns (reach items) = (List.range m).filter (named items) :=
        picked_eq_iff
          (fun i hi => ⟨(mem_turns.mp hi).2,
            Nat.lt_of_lt_of_le (reached_lt (mem_turns_reach.mp hi)) hm⟩)
          (fun i hi => List.mem_range.mp (List.mem_filter.mp hi).1)
      simp only [Obeyed, h, Bool.false_eq_true, if_false]
      constructor
      · intro hall
        have hmany := highest_le_of_carved h (t := List.replicate m 'a') (by simp)
          (hall _ (by simp))
        rw [List.length_replicate] at hmany
        refine ⟨hmany, (turns_eq_named_iff hmany).mp ((hsame hmany).mp ?_)⟩
        rintro t rfl
        exact (carved_closed_iff h hmany).mp (hall t rfl)
      · rintro ⟨hmany, hkeep⟩ t rfl
        refine (carved_closed_iff h hmany).mpr ?_
        exact (hsame hmany).mpr ((turns_eq_named_iff hmany).mpr hkeep) t rfl

end Carved

/-! ### All lines -/

theorem each_map {α β : Type} (f : β → Yield) (g : α → β) (as : List α) :
    Yield.each f (as.map g) = Yield.each (fun a => f (g a)) as := by
  induction as with
  | nil => rfl
  | cons a as ih => simp only [List.map_cons, Yield.each, ih]

/-- The text of each, up to the first that has none. -/
def textOfEach {α : Type} (text? : α → Except Fault Text) : List α → Yield :=
  Yield.each fun a => .after (text? a) fun t => ⟨[.text t], none⟩

theorem textOfEach_cons_ok {α : Type} {text? : α → Except Fault Text} {a : α} {t : Text}
    (h : text? a = .ok t) (as : List α) :
    textOfEach text? (a :: as) =
      ⟨.text t :: (textOfEach text? as).items, (textOfEach text? as).fault⟩ := by
  simp only [textOfEach, Yield.each, h, Yield.after, List.singleton_append]

theorem textOfEach_cons_error {α : Type} {text? : α → Except Fault Text} {a : α} {e : Fault}
    (h : text? a = .error e) (as : List α) : textOfEach text? (a :: as) = ⟨[], some e⟩ := by
  simp only [textOfEach, Yield.each, h, Yield.after]

theorem textOfEach_eq_iff {α : Type} {text? : α → Except Fault Text} {text : α → Text}
    {as : List α} :
    textOfEach text? as = ⟨as.map fun a => .text (text a), none⟩ ↔
      ∀ a ∈ as, text? a = .ok (text a) := by
  induction as with
  | nil => exact iff_of_true rfl (by simp)
  | cons a as ih =>
      rw [List.forall_mem_cons, ← ih]
      cases ha : text? a with
      | error e => simp [textOfEach_cons_error ha]
      | ok t =>
          rw [textOfEach_cons_ok ha]
          cases textOfEach text? as
          simp [and_assoc]

/-- The lines are cut one after another. -/
theorem runCut_listText {items : List CutItem} (h : items ≠ []) {w : World} {source : Value}
    {lines : List Text} (hs : sourceLines w [source] = .ok (lines.map .text)) :
    runCut [.text "-b".toList, .text (listText items), source] w =
      .ofYield [source] w (textOfEach (carved items) lines) := by
  obtain ⟨s, hread, htells⟩ := Cutting.read_listText h
  refine (runCut_lines hs (listText items)).trans ?_
  simp only [hread, Yield.after, cutAll, each_map, htells.cutLine_eq, textOfEach]

/-- What `cut` does with a list of positions and lines, each with its line break. What it gives out
is what the list says, for all lines of given lengths, if and only if the list is obeyed for each
of these lengths. -/
theorem cut_obeys_iff {items : List CutItem} (h : items ≠ []) (w : World) :
    (∀ (source : Value) (lines : List Text),
      sourceLines w [source] = .ok (lines.map .text) →
        runCut [.text "-b".toList, .text (listText items), source] w =
          .ofYield [source] w (textOfEach (carved items) lines)) ∧
      ∀ lengths : List Nat,
        (∀ (source : Value) (contents : List Text), contents.map List.length = lengths →
          sourceLines w [source] = .ok (contents.map fun t => .text (t ++ ['\n'])) →
            runCut [.text "-b".toList, .text (listText items), source] w =
              .ofYield [source] w ⟨contents.map fun t => .text (wanted items t), none⟩) ↔
          ∀ m ∈ lengths, Obeyed items m := by
  refine ⟨fun source lines => runCut_listText h, fun lengths => ?_⟩
  have hrun : ∀ (source : Value) (contents : List Text),
      sourceLines w [source] = .ok (contents.map fun t => .text (t ++ ['\n'])) →
        runCut [.text "-b".toList, .text (listText items), source] w =
          .ofYield [source] w (textOfEach (fun t => carved items (t ++ ['\n'])) contents) := by
    intro source contents hs
    have hmap : (contents.map fun t => t ++ ['\n']).map Value.text =
        contents.map fun t => .text (t ++ ['\n']) := List.map_map
    rw [runCut_listText h (hs.trans (congrArg _ hmap.symm)), textOfEach, each_map, textOfEach]
  constructor
  · intro hall m hm
    rw [← carved_wanted_iff]
    rintro t rfl
    obtain ⟨before, after, rfl⟩ := List.append_of_mem hm
    have hfill : ∀ ns : List Nat, (ns.map (List.replicate · 'a')).map List.length = ns := by
      intro ns
      rw [List.map_map]
      exact (List.map_congr_left fun n _ => List.length_replicate).trans (List.map_id ns)
    -- Any line of the length can stand among lines of the other lengths.
    obtain ⟨contents, hlengths, ht⟩ : ∃ contents : List Text,
        contents.map List.length = before ++ t.length :: after ∧ t ∈ contents := by
      refine ⟨before.map (List.replicate · 'a') ++ t :: after.map (List.replicate · 'a'), ?_, ?_⟩
      · rw [List.map_append, List.map_cons, hfill, hfill]
      · simp
    have hgiven := hall (.list (contents.map fun t => .text (t ++ ['\n']))) contents hlengths rfl
    rw [hrun _ contents rfl] at hgiven
    have heach : textOfEach (fun t => carved items (t ++ ['\n'])) contents = _ :=
      congrArg (fun e : Effect => Yield.mk e.added e.fault) hgiven
    exact textOfEach_eq_iff.mp heach t ht
  · intro hobeyed source contents hlengths hs
    rw [hrun source contents hs]
    congr 1
    refine textOfEach_eq_iff.mpr fun t ht => ?_
    have hm : t.length ∈ lengths := by
      rw [← hlengths]
      exact List.mem_map_of_mem ht
    exact (carved_wanted_iff items t.length).mpr (hobeyed _ hm) t rfl

/-- Of `1-3,5-7` the character between the two intervals is left too, so the list is not obeyed on
lines of eight characters. Of `8-9` the ninth character is left before the eighth, on any line that
has both. But `1,2-3` is obeyed on lines of three. -/
theorem cut_obeys_iff_gap :
    let gap : List CutItem := [.between ⟨1, by decide⟩ ⟨3, by decide⟩,
      .between ⟨5, by decide⟩ ⟨7, by decide⟩]
    let turned : List CutItem := [.between ⟨8, by decide⟩ ⟨9, by decide⟩]
    let joined : List CutItem := [.one ⟨1, by decide⟩, .between ⟨2, by decide⟩ ⟨3, by decide⟩]
    (gap ≠ [] ∧ listText gap = "1-3,5-7".toList ∧
        runCut [.text "-b".toList, .text (listText gap), .list [.text "abcdefgh\n".toList]]
          World.odd = .ofYield [.list [.text "abcdefgh\n".toList]] World.odd
            ⟨[.text "abcdefg\n".toList], none⟩ ∧
        wanted gap "abcdefgh".toList = "abcefg\n".toList ∧
        ¬ ∀ (source : Value) (contents : List Text), contents.map List.length = [8] →
          sourceLines World.odd [source] = .ok (contents.map fun t => .text (t ++ ['\n'])) →
            runCut [.text "-b".toList, .text (listText gap), source] World.odd =
              .ofYield [source] World.odd
                ⟨contents.map fun t => .text (wanted gap t), none⟩) ∧
      (turned ≠ [] ∧ listText turned = "8-9".toList ∧
        runCut [.text "-b".toList, .text (listText turned), .list [.text "abcdefghij\n".toList]]
          World.odd = .ofYield [.list [.text "abcdefghij\n".toList]] World.odd
            ⟨[.text "ih\n".toList], none⟩ ∧
        wanted turned "abcdefghij".toList = "hi\n".toList ∧ ¬ Obeyed turned 10) ∧
      joined ≠ [] ∧ listText joined = "1,2-3".toList ∧
        runCut [.text "-b".toList, .text (listText joined), .list [.text "abc\n".toList]]
          World.odd = .ofYield [.list [.text "abc\n".toList]] World.odd
            ⟨[.text "abc\n".toList], none⟩ := by
  intro gap turned joined
  have hgap : gap ≠ [] := by simp [gap]
  have hturned : turned ≠ [] := by simp [turned]
  have hjoined : joined ≠ [] := by simp [joined]
  have hobeyed : ∀ m ∈ [3], Obeyed joined m := by
    simp only [List.mem_singleton, forall_eq, Obeyed]
    decide +kernel
  have hcut : ∀ {items : List CutItem}, items ≠ [] → ∀ {line left : Text},
      carved items line = .ok left →
        runCut [.text "-b".toList, .text (listText items), .list [.text line]] World.odd =
          .ofYield [.list [.text line]] World.odd ⟨[.text left], none⟩ := by
    intro items hne line left hcarved
    rw [(cut_obeys_iff hne World.odd).1 _ [line] rfl, textOfEach_cons_ok hcarved]
    rfl
  refine ⟨⟨hgap, by decide +kernel, hcut hgap (by decide +kernel), by decide +kernel, ?_⟩,
    ⟨hturned, by decide +kernel, hcut hturned (by decide +kernel), by decide +kernel, ?_⟩,
    hjoined, by decide +kernel, ?_⟩
  · rw [(cut_obeys_iff hgap World.odd).2]
    simp only [List.mem_singleton, forall_eq, Obeyed]
    decide +kernel
  · rw [Obeyed]
    decide +kernel
  · exact ((cut_obeys_iff hjoined World.odd).2 [3]).mpr hobeyed _ ["abc".toList] rfl rfl

end CommandShell.Application
