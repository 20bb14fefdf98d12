import CommandShell.Proofs.CutLines

/-! # Any text as a list of positions

A list of positions need not be well-formed. Digits, dashes and commas are read in whatever order
they come, and only another character is refused. What has been found then is bounded by the
greatest digit, and an interval to the end of the line always has a start. -/

namespace CommandShell

/-! ### One character as an integer -/

namespace Text

variable {c : Char} {d : Nat}

/-- A digit comes behind the signs and is not blank. -/
theorem code_of_digit? (h : digit? c = some d) : 48 ≤ c.toNat ∧ isBlank c = false := by
  have hzeros : ∀ z ∈ zeros, 48 ≤ z ∧ ∀ r ∈ blankRanges, r.2 < z ∨ z + 10 ≤ r.1 := by decide
  obtain ⟨z, hz, -⟩ := Option.map_eq_some_iff.mp h
  have hrun : z ≤ c.toNat ∧ c.toNat < z + 10 := by simpa using List.find?_some hz
  obtain ⟨hfirst, hapart⟩ := hzeros z (List.mem_of_find?_eq_some hz)
  refine ⟨by omega, Bool.eq_false_iff.mpr fun hblank => ?_⟩
  obtain ⟨r, hr, hlow, hhigh⟩ := exists_of_inRanges hblank
  rcases hapart r hr with hbefore | hbehind
  · omega
  · omega

theorem splitSign_singleton (h : 48 ≤ c.toNat) : splitSign [c] = (false, [c]) := by
  unfold splitSign
  split
  · next heq =>
      obtain ⟨rfl, -⟩ := List.cons.inj heq
      exact absurd h (by decide)
  · next heq =>
      obtain ⟨rfl, -⟩ := List.cons.inj heq
      exact absurd h (by decide)
  · rfl

theorem integer?_digit (h : digit? c = some d) : integer? [c] = .ok (d : Int) := by
  obtain ⟨hcode, hblank⟩ := code_of_digit? h
  have hdigit : isDigit c = true := by rw [isDigit, h, Option.isSome_some]
  have hnumeral : isNumeral c = true := by rw [isNumeral, hdigit, Bool.true_or]
  have hspaced : wellSpaced [c] = true := hdigit
  simp [integer?, isIntegerBlank, hblank, splitSign_singleton hcode, hnumeral, hspaced, hdigit,
    digitLimit, numeralValue, h]

/-- Without a digit there is no numeral, whether the character is a blank, a sign or neither. -/
theorem integer?_noDigit (h : digit? c = none) : integer? [c] = .error (.invalid [c]) := by
  have hdigit : isDigit c = false := by rw [isDigit, h, Option.isSome_none]
  have hbody : ∀ body : Text, body = [] ∨ body = [c] →
      wellSpaced (body.takeWhile isNumeral) = false := by
    rintro body (rfl | rfl)
    · rfl
    · rw [List.takeWhile_cons]
      split
      · exact hdigit
      · rfl
  have hrest : (splitSign ([c].dropWhile isIntegerBlank)).2 = [] ∨
      (splitSign ([c].dropWhile isIntegerBlank)).2 = [c] := by
    rw [List.dropWhile_cons]
    split
    · exact Or.inl rfl
    · unfold splitSign
      split
      · next heq => exact Or.inl (List.cons.inj heq).2.symm
      · next heq => exact Or.inl (List.cons.inj heq).2.symm
      · exact Or.inr rfl
  simp [integer?, hbody _ hrest]

end Text

namespace Application

/-- The digits of a text, in any script. -/
def digitsIn (t : Text) : List Nat := t.filterMap Text.digit?

/-- A character that does not belong into a list of positions. -/
def isStray (c : Char) : Bool := c ≠ '-' && c ≠ ',' && !Text.isDigit c

theorem isStray_iff {c : Char} :
    isStray c = true ↔ c ≠ '-' ∧ c ≠ ',' ∧ Text.isDigit c = false := by
  simp [isStray, and_assoc]

namespace Cutting

/-! ### What holds whatever has been read -/

/-- Indices that are found for digits: none is out of bounds, and the greatest digit has its own. -/
structure Fills (found : List Int) (ds : List Nat) : Prop where
  bounds : ∀ i ∈ found, -1 ≤ i ∧ i < highest ds
  greatest : ds ≠ [] → (highest ds : Int) - 1 ∈ found

/-- What holds after digits have been read, whatever has been between them. -/
structure Within (s : Cutting) (ds : List Nat) : Prop where
  fills : Fills s.found ds
  last : s.last = -1 ∨ s.last ∈ s.found
  dashed : s.dashed = true → s.last = -1
  starts : ∀ i ∈ s.starts, 0 ≤ i ∧ i ∈ s.found
  toEnd : s.toEnd = true → s.starts ≠ []

variable {s : Cutting} {ds : List Nat} {c : Char} {d : Nat}

theorem within_empty : Within empty [] where
  fills := ⟨by simp [empty], fun h => absurd rfl h⟩
  last := Or.inl rfl
  dashed := fun _ => rfl
  starts := by simp [empty]
  toEnd := by simp [empty]

/-- A digit adds the indices below it, from one on that is below it or below a digit before it. -/
theorem Fills.digit {found more : List Int} {a : Int} (h : Fills found ds)
    (hmore : ∀ i ∈ more, -1 ≤ i ∧ i < d) (hlow : -1 ≤ a) (ha : a < d ∨ a < highest ds) :
    Fills (found ++ more ++ span a d) (ds ++ [d]) := by
  have hle : highest ds ≤ highest (ds ++ [d]) ∧ d ≤ highest (ds ++ [d]) := by
    rw [highest_concat]
    split <;> omega
  constructor
  · intro i hi
    simp only [List.mem_append, mem_span] at hi
    rcases hi with (hi | hi) | hi
    · have := h.bounds i hi
      omega
    · have := hmore i hi
      omega
    · omega
  · intro _
    simp only [List.mem_append, mem_span, highest_concat]
    split
    · next hlt => exact Or.inr (by omega)
    · next hge =>
        cases ds with
        | nil =>
            -- The first digit is a zero, and its index is the one before all others.
            have hzero : highest [] = 0 := rfl
            exact Or.inr (by omega)
        | cons e ds => exact Or.inl (Or.inl (h.greatest (by simp)))

/-- The index that a number goes on from if no dash waits for it. -/
theorem Within.resumes (h : s.Within ds) {a : Int}
    (ha : s.found.getLast?.getD ((d : Int) - 1) = a) :
    -1 ≤ a ∧ (a < d ∨ a < highest ds) ∧ a ∈ s.found ++ span a d := by
  cases hl : s.found.getLast? with
  | none =>
      rw [hl, Option.getD_none] at ha
      exact ⟨by omega, Or.inl (by omega), List.mem_append_right _ (mem_span.mpr (by omega))⟩
  | some l =>
      rw [hl, Option.getD_some] at ha
      have hmem : a ∈ s.found := ha ▸ List.mem_of_getLast? hl
      obtain ⟨hlow, hhigh⟩ := h.fills.bounds a hmem
      exact ⟨hlow, Or.inr hhigh, List.mem_append_left _ hmem⟩

/-- A number goes on from the last index found, or from the beginning after a dash alone. -/
theorem Within.number (h : s.Within ds) (d : Nat) : (s.number d).Within (ds ++ [d]) := by
  have hstarts : ∀ {found : List Int}, s.found ⊆ found → ∀ i ∈ s.starts, 0 ≤ i ∧ i ∈ found :=
    fun hsub i hi => (h.starts i hi).imp_right fun hmem => hsub hmem
  unfold Cutting.number
  split
  · next hdashed =>
      have hlast := h.dashed hdashed
      have hfills : Fills (s.found ++ span 0 d ++ span s.last d) (ds ++ [d]) := by
        refine h.fills.digit (fun i hi => ?_) (by omega) (Or.inl (by omega))
        have := mem_span.mp hi
        omega
      refine ⟨hfills, Or.inl hlast, fun _ => hlast, hstarts ?_, fun htrue => by cases htrue⟩
      rw [List.append_assoc]
      exact List.subset_append_left _ _
  · next hdashed =>
      dsimp only
      generalize ha : s.found.getLast?.getD ((d : Int) - 1) = a
      obtain ⟨hlow, hhigh, hself⟩ := h.resumes ha
      have hfills := h.fills.digit (fun i hi => absurd hi List.not_mem_nil) hlow hhigh
      rw [List.append_nil] at hfills
      exact ⟨hfills, Or.inr hself, fun htrue => absurd htrue hdashed,
        hstarts (List.subset_append_left _ _), fun htrue => by cases htrue⟩

/-- A dash comes after a number, or it waits for one. -/
theorem Within.dash (h : s.Within ds) : ∃ s', s.step (.text ['-']) = .ok s' ∧ s'.Within ds := by
  by_cases hl : s.last = -1
  · exact ⟨_, step_loneDash hl, h.fills, h.last, fun _ => hl, h.starts, h.toEnd⟩
  · refine ⟨s.dash, step_dash hl, h.fills, h.last, h.dashed, ?_, fun _ => by simp [Cutting.dash]⟩
    have hmem : s.last ∈ s.found := h.last.resolve_left hl
    have hlow := (h.fills.bounds _ hmem).1
    intro i hi
    rcases List.mem_append.mp hi with hi | hi
    · exact h.starts i hi
    · obtain rfl := List.mem_singleton.mp hi
      exact ⟨by omega, hmem⟩

theorem Within.comma (h : s.Within ds) : { s with last := -1 }.Within ds :=
  ⟨h.fills, Or.inl rfl, fun _ => rfl, h.starts, h.toEnd⟩

/-! ### Sign by sign -/

/-- A character that belongs into a list of positions is read. -/
theorem Within.step (h : s.Within ds) (hc : isStray c = false) :
    ∃ s', s.step (.text [c]) = .ok s' ∧ s'.Within (ds ++ digitsIn [c]) := by
  by_cases hdash : c = '-'
  · subst hdash
    have hnone : digitsIn ['-'] = [] := by decide
    rw [hnone, List.append_nil]
    exact h.dash
  by_cases hcomma : c = ','
  · subst hcomma
    have hnone : digitsIn [','] = [] := by decide
    rw [hnone, List.append_nil]
    exact ⟨_, step_comma s, h.comma⟩
  obtain ⟨d, hd⟩ : ∃ d, Text.digit? c = some d := by
    simpa [isStray, hdash, hcomma, Text.isDigit, Option.isSome_iff_exists] using hc
  refine ⟨s.number d, ?_, by simpa [digitsIn, hd] using h.number d⟩
  simp [Cutting.step, Value.isText, hdash, hcomma, Value.integer?, Text.integer?_digit hd]

/-- Any other character is refused. -/
theorem step_stray (s : Cutting) (hc : isStray c = true) :
    s.step (.text [c]) = .error (.integer (.invalid [c])) := by
  obtain ⟨hdash, hcomma, hdigit⟩ := isStray_iff.mp hc
  have hnone : Text.digit? c = none := by simpa [Text.isDigit] using hdigit
  simp [Cutting.step, Value.isText, hdash, hcomma, Value.integer?, Text.integer?_noDigit hnone]

/-- A text is read to its end, or to the first character that does not belong into it. -/
theorem Within.readFrom_cases (h : s.Within ds) (t : Text) :
    (t.find? isStray = none ∧ ∃ s', s.readFrom (Value.text t).members = .ok s' ∧
        s'.Within (ds ++ digitsIn t)) ∨
      ∃ c, t.find? isStray = some c ∧
        s.readFrom (Value.text t).members = .error (.integer (.invalid [c])) := by
  induction t generalizing s ds with
  | nil => exact Or.inl ⟨rfl, s, rfl, by simpa [digitsIn] using h⟩
  | cons c t ih =>
      rw [List.find?_cons, members_cons, readFrom]
      cases hc : isStray c with
      | true => exact Or.inr ⟨c, rfl, by rw [step_stray s hc]⟩
      | false =>
          obtain ⟨s', hstep, hwithin⟩ := h.step hc
          have hdigits : digitsIn (c :: t) = digitsIn [c] ++ digitsIn t :=
            List.filterMap_append (l := [c])
          rw [hstep, hdigits, ← List.append_assoc]
          exact ih hwithin

/-! ### What is returned -/

/-- The indices that are left of those found are bounded by the digits, and so are the starts. -/
theorem Within.indices (h : s.Within ds) :
    (∀ i ∈ s.indices, 0 ≤ i ∧ i < highest ds) ∧
      (0 < highest ds → (highest ds : Int) - 1 ∈ s.indices) ∧
      ∀ n ∈ s.starts, n ∈ s.indices := by
  refine ⟨fun i hi => ?_, fun hpos => ?_, fun n hn => ?_⟩
  · obtain ⟨hmem, hi⟩ := mem_indices.mp hi
    exact ⟨hi, (h.fills.bounds i hmem).2⟩
  · have hne : ds ≠ [] := by
      rintro rfl
      exact absurd hpos (by decide)
    exact mem_indices.mpr ⟨h.fills.greatest hne, by omega⟩
  · obtain ⟨hpos, hmem⟩ := h.starts n hn
    exact mem_indices.mpr ⟨hmem, hpos⟩

end Cutting

/-- A line is cut from the first start on if an interval reaches to its end. -/
theorem runCut_toEnd {t : Text} {s : Cutting} (hread : Cutting.read (Value.text t).members = .ok s)
    (hend : s.toEnd = true) {n : Int} {more : List Int} (hstarts : s.starts = n :: more) {w : World}
    {source : Value} {lines : List Text} (hs : sourceLines w [source] = .ok (lines.map .text)) :
    runCut [.text "-b".toList, .text t, source] w =
      .ofYield [source] w ⟨lines.map fun u => .text (u.drop n.toNat), none⟩ := by
  have hcut : ∀ u : Text, s.cutLine (.text u) = .ok (u.drop n.toNat) := by
    intro u
    simp only [Cutting.cutLine, hend, hstarts]
  refine (runCut_lines hs t).trans ?_
  rw [hread]
  simp only [Yield.after, cutAll, each_map]
  congr 1
  exact textOfEach_eq_iff.mpr fun u _ => hcut u

/-- Reading a text as a list of positions. It fails if and only if there is a character that is no
dash, comma or digit, and the first of these is the fault. Otherwise the indices are distinct, from
zero up to the greatest digit and not with it; the starts are among them; and an interval to the end
has a start, so `cut` leaves of all lines what is from there on. -/
theorem any_positions_read (t : Text) :
    ((∃ e, Cutting.read (Value.text t).members = .error e) ↔
        ∃ c ∈ t, c ≠ '-' ∧ c ≠ ',' ∧ Text.isDigit c = false) ∧
      (∀ e, Cutting.read (Value.text t).members = .error e →
        ∃ c, t.find? isStray = some c ∧ e = .integer (.invalid [c])) ∧
      ∀ s, Cutting.read (Value.text t).members = .ok s →
        s.indices.Nodup ∧
        (∀ i ∈ s.indices, 0 ≤ i ∧ i < highest (digitsIn t)) ∧
        (0 < highest (digitsIn t) → (highest (digitsIn t) : Int) - 1 ∈ s.indices) ∧
        (∀ n ∈ s.starts, n ∈ s.indices ∧ 0 ≤ n ∧ n < highest (digitsIn t)) ∧
        (s.toEnd = true → ∃ n more, s.starts = n :: more ∧
          ∀ (w : World) (source : Value) (lines : List Text),
            sourceLines w [source] = .ok (lines.map .text) →
              runCut [.text "-b".toList, .text t, source] w =
                .ofYield [source] w ⟨lines.map fun u => .text (u.drop n.toNat), none⟩) := by
  have hcases : (t.find? isStray = none ∧ ∃ s, Cutting.read (Value.text t).members = .ok s ∧
        s.Within (digitsIn t)) ∨ ∃ c, t.find? isStray = some c ∧
          Cutting.read (Value.text t).members = .error (.integer (.invalid [c])) :=
    Cutting.within_empty.readFrom_cases t
  rcases hcases with ⟨hnone, s, hread, hwithin⟩ | ⟨c, hc, hread⟩
  · have hno : ∀ e, Cutting.read (Value.text t).members ≠ .error e := fun e he => by
      rw [hread] at he
      cases he
    obtain ⟨hbounds, hgreatest, hstarts⟩ := hwithin.indices
    refine ⟨iff_of_false (fun ⟨e, he⟩ => hno e he) ?_, fun e he => absurd he (hno e), ?_⟩
    · rintro ⟨c, hmem, hstray⟩
      exact absurd (isStray_iff.mpr hstray) (List.find?_eq_none.mp hnone c hmem)
    · intro s' hs'
      obtain rfl : s = s' := Except.ok.inj (hread.symm.trans hs')
      refine ⟨s.nodup_indices, hbounds, hgreatest,
        fun n hn => ⟨hstarts n hn, hbounds n (hstarts n hn)⟩, fun hend => ?_⟩
      obtain ⟨n, more, hcons⟩ := List.exists_cons_of_ne_nil (hwithin.toEnd hend)
      exact ⟨n, more, hcons, fun w source lines => runCut_toEnd hread hend hcons⟩
  · have hstray := isStray_iff.mp (List.find?_some hc)
    refine ⟨iff_of_true ⟨_, hread⟩ ⟨c, List.mem_of_find?_eq_some hc, hstray⟩, fun e he => ?_, ?_⟩
    · exact ⟨c, hc, Except.error.inj (he.symm.trans hread)⟩
    · intro s hs
      rw [hread] at hs
      cases hs

/-- A zero, a dash that waits behind a comma and a dash after a number that comes too late to add
anything. -/
theorem any_positions_read_pending :
    let t := "0-,--3,2-".toList
    highest (digitsIn t) = 3 ∧
      (∃ s, Cutting.read (Value.text t).members = .ok s ∧ s.indices = [0, 1, 2] ∧
        s.starts = [2] ∧ s.toEnd = true ∧ s.indices.Nodup) ∧
      runCut [.text "-b".toList, .text t, .list [.text "abcd\n".toList]] World.odd =
        .ofYield [.list [.text "abcd\n".toList]] World.odd ⟨[.text "cd\n".toList], none⟩ ∧
      ∃ e, Cutting.read (Value.text "1-x,3".toList).members = .error e := by
  intro t
  have hread : Cutting.read (Value.text t).members =
      .ok ⟨[2], [-1, 0, 1, 2, -1, 0, 1, 2], true, 2, false⟩ := by rfl
  obtain ⟨hnodup, -, -, -, hcut⟩ := (any_positions_read t).2.2 _ hread
  obtain ⟨n, more, hstarts, hlines⟩ := hcut rfl
  obtain ⟨rfl, rfl⟩ := List.cons.inj hstarts
  refine ⟨by decide, ⟨_, hread, by decide, rfl, rfl, hnodup⟩,
    hlines World.odd _ ["abcd\n".toList] rfl, ?_⟩
  exact (any_positions_read _).1.mpr ⟨'x', by decide, by decide⟩

end Application

end CommandShell
