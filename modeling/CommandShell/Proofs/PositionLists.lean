import CommandShell.Application.Cut
import CommandShell.Proofs.ListedNumbers
import Mathlib.Data.List.Induction
import Mathlib.Data.List.Nodup
import Mathlib.Data.List.TakeWhile

/-! # Reading lists of positions

A list of positions is read sign by sign, so it is not its numbers that count but their digits. A
digit adds the indices below it from the last index found on; only a dash with no number before it
starts again at the beginning of the line. What a well-formed list comes to, and in which order, is
said here in terms of its items. -/

namespace CommandShell.Application

/-- A number that counts from one. -/
structure Position where
  value : Nat
  pos : 0 < value

namespace Position

def text (n : Position) : Text := Text.ofNat n.value

/-- The digits in the order in which they are written. -/
def digits (n : Position) : List Nat := n.text.map fun c => c.toNat - 48

theorem digitChar_sub {c : Char} (h : c.isDigit = true) :
    c.toNat - 48 < 10 ∧ Nat.digitChar (c.toNat - 48) = c := by
  have hrange : 48 ≤ c.toNat ∧ c.toNat ≤ 57 := by
    simpa [Char.isDigit, UInt32.le_iff_toNat_le] using h
  have hlt : c.toNat - 48 < 10 := by omega
  refine ⟨hlt, Char.toNat_inj.mp ?_⟩
  rw [Nat.toNat_digitChar_of_lt_ten hlt]
  omega

theorem isDigit_text {n : Position} {c : Char} (h : c ∈ n.text) : c.isDigit = true :=
  Nat.isDigit_of_mem_toDigits (by decide) (by decide) h

theorem digits_lt {n : Position} {d : Nat} (h : d ∈ n.digits) : d < 10 := by
  obtain ⟨c, hc, rfl⟩ := List.mem_map.mp h
  exact (digitChar_sub (isDigit_text hc)).1

theorem text_eq (n : Position) : n.text = n.digits.map Nat.digitChar := by
  rw [digits, List.map_map]
  exact (List.map_id n.text).symm.trans
    (List.map_congr_left fun c hc => (digitChar_sub (isDigit_text hc)).2.symm)

/-- The first digit of a number is not zero. -/
theorem exists_digits (n : Position) : ∃ d ds, n.digits = d :: ds ∧ 0 < d := by
  have hfirst : ∀ k, 0 < k → ∃ d ds, 0 < d ∧ d < 10 ∧
      Nat.toDigits 10 k = Nat.digitChar d :: ds := by
    intro k
    induction k using Nat.strongRecOn with
    | ind k ih =>
        intro hk
        rcases Nat.lt_or_ge k 10 with hlt | hge
        · exact ⟨k, [], hk, hlt, Nat.toDigits_of_lt_base hlt⟩
        · obtain ⟨d, ds, hd, hten, hdigits⟩ := ih (k / 10) (by omega) (by omega)
          refine ⟨d, ds ++ [Nat.digitChar (k % 10)], hd, hten, ?_⟩
          rw [Nat.toDigits_of_base_le (by decide) hge, hdigits, List.cons_append]
  obtain ⟨d, ds, hd, hten, hdigits⟩ := hfirst n.value n.pos
  refine ⟨d, ds.map (fun c => c.toNat - 48), ?_, hd⟩
  rw [digits, text, Text.ofNat, hdigits, List.map_cons, Nat.toNat_digitChar_of_lt_ten hten,
    Nat.add_sub_cancel_left]

theorem digits_ne_nil (n : Position) : n.digits ≠ [] := by
  obtain ⟨d, ds, h, -⟩ := n.exists_digits
  simp [h]

end Position

/-- An item of a list of positions. -/
inductive CutItem where
  | one (n : Position)
  | between (n m : Position)
  | onward (n : Position)
  | upTo (m : Position)

namespace CutItem

def text : CutItem → Text
  | .one n => n.text
  | .between n m => n.text ++ '-' :: m.text
  | .onward n => n.text ++ ['-']
  | .upTo m => '-' :: m.text

def digits : CutItem → List Nat
  | .one n => n.digits
  | .between n m => n.digits ++ m.digits
  | .onward n => n.digits
  | .upTo m => m.digits

/-- Does the item name the character with this index? The first one has index zero. -/
def names (i : Nat) : CutItem → Bool
  | .one n => i + 1 = n.value
  | .between n m => n.value ≤ i + 1 && i + 1 ≤ m.value
  | .onward n => n.value ≤ i + 1
  | .upTo m => i + 1 ≤ m.value

def isUpTo : CutItem → Bool
  | .upTo _ => true
  | _ => false

def isOnward : CutItem → Bool
  | .onward _ => true
  | _ => false

theorem digits_ne_nil (x : CutItem) : x.digits ≠ [] := by
  cases x with
  | between n m => simp [digits, n.digits_ne_nil]
  | one n | onward n | upTo n => exact n.digits_ne_nil

theorem exists_digit_pos (x : CutItem) : ∃ d ∈ x.digits, 0 < d := by
  cases x with
  | one n | between n _ | onward n | upTo n =>
      obtain ⟨d, ds, h, hd⟩ := n.exists_digits
      exact ⟨d, by simp [digits, h], hd⟩

end CutItem

/-- The items with commas between them. -/
def listText : List CutItem → Text
  | [] => []
  | [x] => x.text
  | x :: y :: rest => x.text ++ ',' :: listText (y :: rest)

/-! ### Digits -/

/-- The greatest of the digits. -/
def highest : List Nat → Nat
  | [] => 0
  | d :: ds => if highest ds < d then d else highest ds

theorem lt_highest_iff {ds : List Nat} {i : Nat} : i < highest ds ↔ ∃ d ∈ ds, i < d := by
  induction ds with
  | nil => simp [highest]
  | cons d ds ih =>
      simp only [List.mem_cons, exists_eq_or_imp, ← ih, highest]
      split <;> omega

theorem lt_highest_append {ds es : List Nat} {i : Nat} :
    i < highest (ds ++ es) ↔ i < highest ds ∨ i < highest es := by
  simp only [lt_highest_iff, List.mem_append, or_and_right, exists_or]

theorem headD_le_highest (ds : List Nat) : ds.headD 0 ≤ highest ds := by
  cases ds with
  | nil => exact Nat.le_refl 0
  | cons d ds =>
      rw [List.headD_cons, highest]
      split <;> omega

theorem highest_append (ds es : List Nat) : highest (ds ++ es) = max (highest ds) (highest es) := by
  have h1 := @lt_highest_append ds es (highest ds)
  have h2 := @lt_highest_append ds es (highest es)
  have h3 := @lt_highest_append ds es (highest (ds ++ es))
  omega

theorem highest_singleton (d : Nat) : highest [d] = d := by
  rcases Nat.eq_zero_or_pos d with rfl | hd
  · rfl
  · exact if_pos hd

/-- A further digit is the greatest, or what was the greatest still is. -/
theorem highest_concat (ds : List Nat) (d : Nat) :
    highest (ds ++ [d]) = if highest ds < d then d else highest ds := by
  rw [highest_append, highest_singleton]
  split <;> omega

/-- From where on a digit counts that comes after others. -/
def base (before : List Nat) (d : Nat) : Nat := if before.isEmpty then d else highest before

/-- The indices that digits add to those of the digits before them. -/
def added (before ds : List Nat) : List Nat :=
  (List.range (highest ds)).drop (base before (ds.headD 0) - 1)

theorem base_of_ne_nil {before : List Nat} (h : before ≠ []) (d : Nat) :
    base before d = highest before := by
  simp [base, h]

theorem mem_added {before ds : List Nat} {i : Nat} :
    i ∈ added before ds ↔ base before (ds.headD 0) ≤ i + 1 ∧ i < highest ds := by
  rw [added, Slots.mem_drop_range]
  omega

/-- Digits can be read in two parts: what the second part adds starts within what has been added, or
where the first part would have started. -/
theorem ofList_added_append (ms before ds es : List Nat) :
    Slots.ofList (ms ++ added before ds ++ added (before ++ ds) es) =
      Slots.ofList (ms ++ added before (ds ++ es)) := by
  cases ds with
  | nil => simp [added, highest]
  | cons d ds =>
      have hbase : base (before ++ d :: ds) (es.headD 0) = max (highest before) (highest (d :: ds)) := by
        rw [base_of_ne_nil (by simp), highest_append]
      have hd : d ≤ highest (d :: ds) := headD_le_highest (d :: ds)
      have hadded : added before (d :: ds ++ es) =
          (List.range (max (highest (d :: ds)) (highest es))).drop (base before d - 1) := by
        rw [added, highest_append]
        rfl
      rw [hadded, added, added, hbase, List.headD_cons]
      cases before with
      | nil =>
          have hnone : highest [] = 0 := rfl
          have hfirst : base [] d = d := rfl
          exact Slots.ofList_range_append ms (by omega) (by omega)
      | cons b before =>
          rw [base_of_ne_nil (by simp)]
          exact Slots.ofList_range_append ms (by omega) (by omega)

/-! ### What is found -/

namespace Cutting

theorem mem_span {a b i : Int} : i ∈ span a b ↔ a ≤ i ∧ i < b := by
  simp only [span, List.mem_map, List.mem_range]
  constructor
  · rintro ⟨k, hk, rfl⟩
    omega
  · rintro ⟨ha, hb⟩
    exact ⟨(i - a).toNat, by omega, by omega⟩

theorem span_eq_nil {a b : Int} (h : b ≤ a) : span a b = [] := by
  have hzero : (b - a).toNat = 0 := by omega
  rw [span, hzero]
  rfl

theorem span_succ {a b : Int} (h : a ≤ b) : span a (b + 1) = span a b ++ [b] := by
  have hlength : (b + 1 - a).toNat = (b - a).toNat + 1 := by omega
  have hlast : a + ((b - a).toNat : Nat) = b := by omega
  rw [span, hlength, List.range_succ, List.map_append, List.map_singleton, hlast, span]

theorem getLast?_append_span (xs : List Int) (a b : Int) :
    (xs ++ span a b).getLast? = if a < b then some (b - 1) else xs.getLast? := by
  by_cases h : a < b
  · have hspan := span_succ (a := a) (b := b - 1) (by omega)
    rw [Int.sub_add_cancel] at hspan
    rw [if_pos h, hspan, ← List.append_assoc, List.getLast?_concat]
  · rw [if_neg h, span_eq_nil (by omega), List.append_nil]

/-- Of a span that may start below zero the part from zero on is kept. -/
theorem filterMap_span (a : Int) (d : Nat) :
    (span a d).filterMap Int.toNat? = (List.range d).drop a.toNat := by
  induction d with
  | zero =>
      refine (List.filterMap_eq_nil_iff.mpr fun i hi => ?_).trans (by simp)
      have hneg := (mem_span.mp hi).2
      cases i with
      | ofNat k => exact absurd hneg (Int.not_lt.mpr (Int.natCast_nonneg k))
      | negSucc k => rfl
  | succ d ih =>
      rw [Int.natCast_succ]
      by_cases h : a ≤ d
      · have hkept : [(d : Int)].filterMap Int.toNat? = [d] := rfl
        rw [span_succ h, List.filterMap_append, ih, hkept, List.range_succ,
          List.drop_append_of_le_length (by simp; omega)]
      · rw [span_eq_nil (by omega), List.filterMap_nil]
        exact (List.drop_eq_nil_of_le (by simp; omega)).symm

/-- The last index that is found for digits. -/
def lastIndex (ds : List Nat) : Option Int := if ds.isEmpty then none else some (highest ds - 1)

theorem mem_kept {s : Cutting} {i : Nat} : i ∈ s.kept ↔ (i : Int) ∈ s.found := by
  simp only [kept, List.mem_filterMap]
  constructor
  · rintro ⟨j, hj, hji⟩
    rwa [← Int.mem_toNat?.mp hji]
  · intro hi
    exact ⟨i, hi, rfl⟩

theorem mem_indices {s : Cutting} {i : Int} : i ∈ s.indices ↔ i ∈ s.found ∧ 0 ≤ i := by
  simp only [indices, List.mem_map, Slots.mem_ofList, mem_kept]
  constructor
  · rintro ⟨k, hk, rfl⟩
    exact ⟨hk, Int.natCast_nonneg k⟩
  · rintro ⟨hi, hpos⟩
    obtain ⟨k, rfl⟩ := Int.eq_ofNat_of_zero_le hpos
    exact ⟨k, hi, rfl⟩

theorem nodup_indices (s : Cutting) : s.indices.Nodup :=
  List.Nodup.map (fun _ _ h => Int.ofNat.inj h) (Slots.nodup_ofList s.kept)

/-- The indices found come to those of a list, in the order of that list, and the digits since the
last dash with no number before it. -/
structure Holds (s : Cutting) (ms ds : List Nat) : Prop where
  undashed : s.dashed = false
  last : s.found.getLast? = lastIndex ds
  order : Slots.ofList s.kept = Slots.ofList ms

section Digits

variable {s : Cutting} {ms before : List Nat}

theorem Holds.number_eq (h : s.Holds ms before) (d : Nat) :
    s.number d = { s with
      toEnd := false
      last := (base before d : Int) - 1
      found := s.found ++ span ((base before d : Int) - 1) d } := by
  have hlast : s.found.getLast?.getD ((d : Int) - 1) = (base before d : Int) - 1 := by
    rw [h.last, lastIndex, base]
    split <;> rfl
  simp only [number, h.undashed, Bool.false_eq_true, if_false, hlast]

theorem lastIndex_concat (before : List Nat) (d : Nat) :
    (if (base before d : Int) - 1 < d then some ((d : Int) - 1) else lastIndex before) =
      lastIndex (before ++ [d]) := by
  have hnew : lastIndex (before ++ [d]) = some ((highest (before ++ [d]) : Int) - 1) := by
    simp [lastIndex]
  rw [hnew]
  cases before with
  | nil =>
      have hbase : base [] d = d := rfl
      rw [hbase, List.nil_append, highest_singleton, if_pos (by omega)]
  | cons b before =>
      rw [highest_concat]
      simp only [base, lastIndex, List.isEmpty_cons, Bool.false_eq_true, if_false]
      split <;> split <;> simp <;> omega

/-- A digit adds the indices below it, from the greatest digit before it on. -/
theorem Holds.number (h : s.Holds ms before) (d : Nat) :
    (s.number d).Holds (ms ++ added before [d]) (before ++ [d]) := by
  have hadded : (span ((base before d : Int) - 1) d).filterMap Int.toNat? = added before [d] := by
    have hstart : ((base before d : Int) - 1).toNat = base before d - 1 := by omega
    rw [filterMap_span, hstart, added, highest_singleton, List.headD_cons]
  rw [h.number_eq]
  refine ⟨h.undashed, ?_, ?_⟩
  · simp only [getLast?_append_span, h.last, lastIndex_concat]
  · rw [kept, List.filterMap_append, hadded]
    exact Slots.ofList_append_congr h.order _

/-- Read digits one after another. -/
def numbers (s : Cutting) (ds : List Nat) : Cutting := ds.foldl (fun s (d : Nat) => s.number d) s

theorem Holds.numbers (h : s.Holds ms before) (ds : List Nat) :
    (s.numbers ds).Holds (ms ++ added before ds) (before ++ ds) := by
  induction ds generalizing s ms before with
  | nil =>
      have hnone : added before [] = [] := by simp [added, highest]
      rw [hnone, List.append_nil, List.append_nil]
      exact h
  | cons d ds ih =>
      have hrest := ih (h.number d)
      rw [List.append_assoc before, List.singleton_append] at hrest
      refine ⟨hrest.undashed, hrest.last, hrest.order.trans ?_⟩
      rw [ofList_added_append, List.singleton_append]

theorem Holds.last_numbers (h : s.Holds ms before) (ds : List Nat) (d : Nat) :
    (s.numbers (ds ++ [d])).last = (base (before ++ ds) d : Int) - 1 := by
  have hstep : s.numbers (ds ++ [d]) = (s.numbers ds).number d := List.foldl_append
  rw [hstep, (h.numbers ds).number_eq]

theorem starts_number (s : Cutting) (n : Int) : (s.number n).starts = s.starts := by
  unfold number
  split <;> rfl

theorem toEnd_number (s : Cutting) (n : Int) : (s.number n).toEnd = false := by
  unfold number
  split <;> rfl

theorem starts_numbers (s : Cutting) (ds : List Nat) : (s.numbers ds).starts = s.starts := by
  induction ds generalizing s with
  | nil => rfl
  | cons d ds ih => exact (ih (s.number d)).trans (starts_number s d)

theorem toEnd_numbers (s : Cutting) (d : Nat) (ds : List Nat) :
    (s.numbers (d :: ds)).toEnd = false := by
  induction ds generalizing s d with
  | nil => exact toEnd_number s d
  | cons e ds ih => exact ih (s.number d) e

/-- After a dash with no number before it, all indices below a number's digits are added. -/
theorem holds_dashed (ho : Slots.ofList s.kept = Slots.ofList ms) (hl : s.last = -1) (d : Nat)
    (ds : List Nat) :
    ({ s with dashed := true }.numbers (d :: ds)).Holds (ms ++ List.range (highest (d :: ds)))
      (d :: ds) := by
  have hfirst : ({ s with dashed := true }.number d).Holds (ms ++ List.range d) [d] := by
    have hnumber : { s with dashed := true }.number d = { s with
        toEnd := false
        dashed := false
        found := s.found ++ span 0 d ++ span (-1) d } := by
      simp only [Cutting.number, if_true, hl]
    rw [hnumber]
    refine ⟨rfl, ?_, ?_⟩
    · rw [getLast?_append_span, if_pos (by omega), lastIndex, highest_singleton]
      rfl
    · rw [kept, List.filterMap_append, List.filterMap_append, filterMap_span, filterMap_span]
      refine (Slots.ofList_append_of_subset fun n hn => List.mem_append_right _ hn).trans ?_
      exact Slots.ofList_append_congr ho _
  have hall := hfirst.numbers ds
  refine ⟨hall.undashed, hall.last, hall.order.trans ?_⟩
  have hgoes := Slots.ofList_range_append ms (a := 0) (c := d) (d := highest ds) (l := d - 1)
    (by omega) (by omega)
  have hhighest : highest (d :: ds) = max d (highest ds) := by
    rw [← List.singleton_append, highest_append, highest_singleton]
  rw [added, base_of_ne_nil (by simp), highest_singleton, hhighest]
  exact hgoes

/-- A dash after a number. -/
def dash (s : Cutting) : Cutting := { s with starts := s.starts ++ [s.last], toEnd := true }

theorem Holds.dash (h : s.Holds ms before) : s.dash.Holds ms before :=
  ⟨h.undashed, h.last, h.order⟩

end Digits

/-! ### Signs -/

theorem members_cons (c : Char) (t : Text) :
    (Value.text (c :: t)).members = .text [c] :: (Value.text t).members := rfl

theorem members_append (t u : Text) :
    (Value.text (t ++ u)).members = (Value.text t).members ++ (Value.text u).members :=
  List.map_append

theorem readFrom_append {s s' : Cutting} {xs ys : List Value} (h : s.readFrom xs = .ok s') :
    s.readFrom (xs ++ ys) = s'.readFrom ys := by
  induction xs generalizing s with
  | nil =>
      cases h
      rfl
  | cons x xs ih =>
      simp only [readFrom, List.cons_append] at h ⊢
      cases hx : s.step x with
      | error e => simp [hx] at h
      | ok t =>
          simp only [hx] at h ⊢
          exact ih h

theorem step_digit (s : Cutting) {d : Nat} (h : d < 10) :
    s.step (.text [Nat.digitChar d]) = .ok (s.number d) := by
  have hsign : ∀ d < 10, Nat.digitChar d ≠ '-' ∧ Nat.digitChar d ≠ ',' := by decide
  have hvalue : (Value.text [Nat.digitChar d]).integer? = .ok (d : Int) := by
    obtain rfl | rfl | rfl | rfl | rfl | rfl | rfl | rfl | rfl | rfl : d = 0 ∨ d = 1 ∨ d = 2 ∨
      d = 3 ∨ d = 4 ∨ d = 5 ∨ d = 6 ∨ d = 7 ∨ d = 8 ∨ d = 9 := by omega
    all_goals rfl
  simp [step, Value.isText, hsign d h, hvalue]

theorem readFrom_digits (s : Cutting) {ds : List Nat} (h : ∀ d ∈ ds, d < 10) :
    s.readFrom (ds.map fun d => .text [Nat.digitChar d]) = .ok (s.numbers ds) := by
  induction ds generalizing s with
  | nil => rfl
  | cons d ds ih =>
      rw [List.map_cons, readFrom, step_digit s (h d (by simp))]
      exact ih (s.number d) (fun e he => h e (by simp [he]))

theorem readFrom_position (s : Cutting) (n : Position) :
    s.readFrom (Value.text n.text).members = .ok (s.numbers n.digits) := by
  rw [Value.members, n.text_eq, List.map_map]
  exact readFrom_digits s fun _ => Position.digits_lt

theorem step_dash {s : Cutting} (h : s.last ≠ -1) : s.step (.text ['-']) = .ok s.dash := by
  simp [step, Value.isText, h, dash]

theorem step_loneDash {s : Cutting} (h : s.last = -1) :
    s.step (.text ['-']) = .ok { s with dashed := true } := by
  simp [step, Value.isText, h]

theorem step_comma (s : Cutting) : s.step (.text [',']) = .ok { s with last := -1 } := rfl

end Cutting

/-! ### Items -/

def digitsOf (xs : List CutItem) : List Nat := xs.flatMap CutItem.digits

/-- The items before the first that has a dash and no number before it. -/
def leading (xs : List CutItem) : List CutItem := xs.takeWhile fun x => !x.isUpTo

/-- The items from the first on that has a dash and no number before it. -/
def trailing (xs : List CutItem) : List CutItem := xs.dropWhile fun x => !x.isUpTo

/-- The indices that items reach, in this order: for the leading items from the first digit up to the
greatest, for the others all up to the greatest. -/
def reach (xs : List CutItem) : List Nat :=
  added [] (digitsOf (leading xs)) ++ List.range (highest (digitsOf (trailing xs)))

def Reached (xs : List CutItem) (i : Nat) : Prop := i ∈ reach xs

/-- The digits before an item and those of the item, or these alone if the item starts with a
dash. -/
def CutItem.follow (before : List Nat) (x : CutItem) : List Nat :=
  if x.isUpTo then x.digits else before ++ x.digits

/-- The digits since the last dash with no number before it. -/
def recent (xs : List CutItem) : List Nat := xs.foldl CutItem.follow []

/-- Where an item starts that has a dash after a number: the last digit of that number counts for
nothing unless it is the only digit so far. -/
def CutItem.start? (before : List Nat) : CutItem → Option Nat
  | .between n _ | .onward n =>
      some (base (before ++ n.digits.dropLast) (n.digits.getLastD 0) - 1)
  | _ => none

/-- Where the first item starts that has a dash after a number. -/
def firstStart (before : List Nat) : List CutItem → Option Nat
  | [] => none
  | x :: xs => (x.start? before).or (firstStart (x.follow before) xs)

/-- Is the last item one that reaches to the end of the line? -/
def endsOpen (xs : List CutItem) : Bool := xs.getLast?.any CutItem.isOnward

section Items

variable {xs : List CutItem} {x : CutItem}

theorem digitsOf_concat (xs : List CutItem) (x : CutItem) :
    digitsOf (xs ++ [x]) = digitsOf xs ++ x.digits := by
  simp [digitsOf]

theorem recent_concat (xs : List CutItem) (x : CutItem) :
    recent (xs ++ [x]) = x.follow (recent xs) := List.foldl_append

theorem endsOpen_concat (xs : List CutItem) (x : CutItem) :
    endsOpen (xs ++ [x]) = x.isOnward := by
  simp [endsOpen]

theorem firstStart_concat (before : List Nat) (xs : List CutItem) (x : CutItem) :
    firstStart before (xs ++ [x]) =
      (firstStart before xs).or (x.start? (xs.foldl CutItem.follow before)) := by
  induction xs generalizing before with
  | nil => simp [firstStart]
  | cons y xs ih =>
      rw [List.cons_append, firstStart, firstStart, ih, Option.or_assoc]
      rfl

/-- Items of which none starts with a dash are all leading, and their digits all count. -/
theorem leading_of_all (h : ∀ y ∈ xs, y.isUpTo = false) :
    leading xs = xs ∧ trailing xs = [] ∧ recent xs = digitsOf xs := by
  refine ⟨?_, ?_, ?_⟩
  · exact List.takeWhile_eq_self_iff.mpr (by simpa using h)
  · exact List.dropWhile_eq_nil_iff.mpr (by simpa using h)
  · induction xs using List.reverseRecOn with
    | nil => rfl
    | append_singleton xs y ih =>
        have hy : y.isUpTo = false := h y (by simp)
        rw [recent_concat, digitsOf_concat, ih (fun z hz => h z (by simp [hz])), CutItem.follow, hy]
        rfl

theorem leading_concat_of_nil (h : trailing xs = []) (x : CutItem) :
    leading (xs ++ [x]) = leading xs ++ leading [x] ∧ trailing (xs ++ [x]) = trailing [x] := by
  have hall := List.dropWhile_eq_nil_iff.mp h
  rw [leading, trailing, List.takeWhile_append_of_pos hall, List.dropWhile_append, ← trailing, h]
  exact ⟨congrArg (· ++ _) (List.takeWhile_eq_self_iff.mpr hall).symm, rfl⟩

theorem leading_concat_of_ne (h : trailing xs ≠ []) (x : CutItem) :
    leading (xs ++ [x]) = leading xs ∧ trailing (xs ++ [x]) = trailing xs ++ [x] := by
  have hshort : (leading xs).length ≠ xs.length := by
    intro hlength
    have hsum := congrArg List.length (List.takeWhile_append_dropWhile (p := fun y => !y.isUpTo)
      (l := xs))
    rw [List.length_append, ← leading, ← trailing] at hsum
    exact h (List.eq_nil_of_length_eq_zero (by omega))
  constructor
  · rw [leading, List.takeWhile_append, ← leading, if_neg hshort]
  · rw [trailing, List.dropWhile_append, ← trailing, if_neg (by simpa using h)]

/-- The digits that were read last are those of the trailing items, or the last of them. -/
theorem recent_trailing (h : trailing xs ≠ []) :
    recent xs ≠ [] ∧ ∃ ds, digitsOf (trailing xs) = ds ++ recent xs := by
  induction xs using List.reverseRecOn with
  | nil => exact absurd rfl h
  | append_singleton xs x ih =>
      rw [recent_concat, CutItem.follow]
      by_cases hxs : trailing xs = []
      · have hx : x.isUpTo = true := by
          rw [(leading_concat_of_nil hxs x).2] at h
          by_contra hx
          exact h (by simp [trailing, hx])
        rw [(leading_concat_of_nil hxs x).2, if_pos hx]
        refine ⟨x.digits_ne_nil, [], ?_⟩
        simp [trailing, hx, digitsOf]
      · obtain ⟨hne, ds, hds⟩ := ih hxs
        rw [(leading_concat_of_ne hxs x).2, digitsOf_concat, hds]
        split
        · exact ⟨x.digits_ne_nil, ds ++ recent xs, rfl⟩
        · exact ⟨by simp [hne], ds, by simp⟩

/-- An item that starts with a number goes on from the digits before it. -/
theorem ofList_reach_follow (h : x.isUpTo = false) :
    Slots.ofList (reach (xs ++ [x])) = Slots.ofList (reach xs ++ added (recent xs) x.digits) := by
  by_cases hxs : trailing xs = []
  · have hall : ∀ y ∈ xs, y.isUpTo = false := by simpa using List.dropWhile_eq_nil_iff.mp hxs
    obtain ⟨hleading, -, hrecent⟩ := leading_of_all hall
    obtain ⟨hl, ht⟩ := leading_concat_of_nil hxs x
    have hone : leading [x] = [x] ∧ trailing [x] = [] := by simp [leading, trailing, h]
    have hparts := ofList_added_append [] [] (digitsOf xs) x.digits
    rw [reach, reach, hl, ht, hone.1, hone.2, hxs, hleading, hrecent, digitsOf_concat]
    simpa [digitsOf, highest] using hparts.symm
  · obtain ⟨hl, ht⟩ := leading_concat_of_ne hxs x
    obtain ⟨hne, ds, hds⟩ := recent_trailing hxs
    have hrecent : highest (recent xs) ≤ highest (digitsOf (trailing xs)) := by
      rw [hds, highest_append]
      omega
    have hadded : added (recent xs) x.digits =
        (List.range (highest x.digits)).drop (highest (recent xs) - 1) := by
      rw [added, base_of_ne_nil hne]
    rw [reach, reach, hl, ht, digitsOf_concat, highest_append, hadded]
    exact (Slots.ofList_range_append _ (a := 0) (by omega) (by omega)).symm

/-- An item that starts with a dash reaches all that is below it. -/
theorem ofList_reach_upTo (h : x.isUpTo = true) :
    Slots.ofList (reach (xs ++ [x])) =
      Slots.ofList (reach xs ++ List.range (highest x.digits)) := by
  by_cases hxs : trailing xs = []
  · obtain ⟨hl, ht⟩ := leading_concat_of_nil hxs x
    have hone : leading [x] = [] ∧ trailing [x] = [x] := by simp [leading, trailing, h]
    rw [reach, reach, hl, ht, hone.1, hone.2, hxs, List.append_nil]
    simp [digitsOf, highest]
  · obtain ⟨hl, ht⟩ := leading_concat_of_ne hxs x
    rw [reach, reach, hl, ht, digitsOf_concat, highest_append]
    exact (Slots.ofList_range_append _ (a := 0) (l := 0) (by omega) (by omega)).symm

theorem highest_recent_pos (h : xs ≠ []) : 0 < highest (recent xs) := by
  obtain ⟨ys, y, rfl⟩ := (List.eq_nil_or_concat xs).resolve_left h
  obtain ⟨d, hd, hpos⟩ := y.exists_digit_pos
  rw [List.concat_eq_append, recent_concat, CutItem.follow]
  apply lt_highest_iff.mpr
  split
  · exact ⟨d, hd, hpos⟩
  · exact ⟨d, by simp [hd], hpos⟩

/-- A dash after a number never comes at the index that stands for no number. -/
theorem base_recent_pos (xs : List CutItem) (n : Position) :
    0 < base (recent xs ++ n.digits.dropLast) (n.digits.getLastD 0) := by
  obtain ⟨d, ds, hdigits, hd⟩ := n.exists_digits
  rw [hdigits]
  cases ds with
  | cons e ds =>
      rw [base_of_ne_nil (by simp)]
      exact lt_highest_iff.mpr ⟨d, by simp, hd⟩
  | nil =>
      rw [List.dropLast_singleton, List.append_nil, base]
      split
      · exact hd
      · next hrecent =>
          have hxs : xs ≠ [] := by
            rintro rfl
            exact hrecent rfl
          exact highest_recent_pos hxs

/-! ### The order of the indices -/

/-- The indices of a list that digits can come to, each once and ascending. -/
def ascending (ms : List Nat) : List Nat := (List.range 9).filter (· ∈ ms)

/-- Is the greatest index that there can be one of less than five? They are kept in eight slots, so
it has none of its own. -/
def Crowded (ms : List Nat) : Prop := 8 ∈ ms ∧ (ascending ms).length < 5

instance (ms : List Nat) : Decidable (Crowded ms) := inferInstanceAs (Decidable (_ ∧ _))

/-- The order in which indices are listed. If they are crowded, the greatest has the first slot; the
index 0 then gives way to the slot of 1, and this one to that of 6. -/
def turns (ms : List Nat) : List Nat :=
  if Crowded ms then [8, 0, 2, 3, 4, 5, 1, 6, 7].filter (· ∈ ms) else ascending ms

/-- An upward run of indices and then one from zero on are listed in this order. -/
theorem numbers_runs : ∀ b < 10, ∀ a < b + 1, ∀ c < 10,
    (Slots.ofList ((List.range b).drop a ++ List.range c)).numbers =
      turns ((List.range b).drop a ++ List.range c) := by
  decide +kernel

theorem digitsOf_lt {d : Nat} (h : d ∈ digitsOf xs) : d < 10 := by
  obtain ⟨x, -, hd⟩ := List.mem_flatMap.mp h
  cases x with
  | between n m => exact (List.mem_append.mp hd).elim Position.digits_lt Position.digits_lt
  | one n | onward n | upTo n => exact Position.digits_lt hd

theorem highest_digitsOf_lt (xs : List CutItem) : highest (digitsOf xs) < 10 := by
  by_contra hge
  have hnine : 9 < highest (digitsOf xs) := by omega
  obtain ⟨d, hd, hlt⟩ := lt_highest_iff.mp hnine
  have := digitsOf_lt hd
  omega

/-- What items reach is listed in this order. -/
theorem numbers_reach (xs : List CutItem) :
    (Slots.ofList (reach xs)).numbers = turns (reach xs) := by
  have hbase : base [] ((digitsOf (leading xs)).headD 0) = (digitsOf (leading xs)).headD 0 := rfl
  have hle := headD_le_highest (digitsOf (leading xs))
  exact numbers_runs _ (highest_digitsOf_lt _) _ (by omega) _ (highest_digitsOf_lt _)

end Items

namespace Cutting

/-- The reader's state after items: the indices that they reach, where the first of them starts
that has a dash after a number, and whether the last of them reaches to the end of the line. -/
structure Tells (s : Cutting) (seen : List CutItem) : Prop extends
    Holds s (reach seen) (recent seen) where
  starts : s.starts.head? = (firstStart [] seen).map fun n => (n : Int)
  toEnd : s.toEnd = endsOpen seen

theorem tells_empty : empty.Tells [] where
  undashed := rfl
  last := rfl
  order := rfl
  starts := rfl
  toEnd := rfl

section Items

variable {s t : Cutting} {seen : List CutItem} {x : CutItem}

theorem Holds.follow (hx : x.isUpTo = false)
    (h : t.Holds (reach seen ++ added (recent seen) x.digits) (recent seen ++ x.digits)) :
    t.Holds (reach (seen ++ [x])) (recent (seen ++ [x])) := by
  have hrecent : recent (seen ++ [x]) = recent seen ++ x.digits := by
    rw [recent_concat, CutItem.follow, hx]
    rfl
  refine ⟨h.undashed, ?_, h.order.trans (ofList_reach_follow hx).symm⟩
  rw [hrecent]
  exact h.last

/-- The last index before a dash after a number. -/
theorem Tells.last_number (h : s.Tells seen) (n : Position) :
    (s.numbers n.digits).last =
      ((base (recent seen ++ n.digits.dropLast) (n.digits.getLastD 0) - 1 : Nat) : Int) := by
  have hpos := base_recent_pos seen n
  have hsplit : n.digits = n.digits.dropLast ++ [n.digits.getLastD 0] := by
    obtain ⟨ds, d, hds⟩ := (List.eq_nil_or_concat n.digits).resolve_left n.digits_ne_nil
    simp [hds]
  have hlast := h.last_numbers n.digits.dropLast (n.digits.getLastD 0)
  rw [← hsplit] at hlast
  rw [hlast]
  omega

/-- A dash after a number adds a start, and only the first start matters. -/
theorem Tells.starts_dash (h : s.Tells seen) (n : Position)
    (hx : x.start? (recent seen) =
      some (base (recent seen ++ n.digits.dropLast) (n.digits.getLastD 0) - 1)) :
    (s.numbers n.digits).dash.starts.head? =
      (firstStart [] (seen ++ [x])).map fun n => (n : Int) := by
  rw [dash, starts_numbers, h.last_number, List.head?_append, h.starts, firstStart_concat, ← recent,
    hx, List.head?_cons]
  cases firstStart [] seen <;> rfl

theorem Tells.last_ne (h : s.Tells seen) (n : Position) : (s.numbers n.digits).last ≠ -1 := by
  rw [h.last_number]
  omega

theorem Tells.starts_numbers (h : s.Tells seen) (hx : x.start? (recent seen) = none)
    (ds : List Nat) :
    (s.numbers ds).starts.head? = (firstStart [] (seen ++ [x])).map fun n => (n : Int) := by
  rw [Cutting.starts_numbers, h.starts, firstStart_concat, ← recent, hx, Option.or_none]

theorem toEnd_position (s : Cutting) (n : Position) : (s.numbers n.digits).toEnd = false := by
  obtain ⟨d, ds, hdigits, -⟩ := n.exists_digits
  rw [hdigits, toEnd_numbers]

/-- The state after an item: its digits and its dash come one after the other. -/
def item (s : Cutting) : CutItem → Cutting
  | .one n => s.numbers n.digits
  | .onward n => (s.numbers n.digits).dash
  | .between n m => (s.numbers n.digits).dash.numbers m.digits
  | .upTo m => { s with dashed := true }.numbers m.digits

theorem Tells.readFrom_item (h : s.Tells seen) (hl : s.last = -1) (x : CutItem) :
    s.readFrom (Value.text x.text).members = .ok (s.item x) := by
  cases x with
  | one n => exact readFrom_position s n
  | onward n =>
      rw [CutItem.text, members_append, readFrom_append (readFrom_position s n)]
      simp only [Value.members, List.map_cons, List.map_nil, readFrom, step_dash (h.last_ne n),
        item]
  | between n m =>
      rw [CutItem.text, members_append, readFrom_append (readFrom_position s n), members_cons,
        readFrom, step_dash (h.last_ne n)]
      exact readFrom_position _ m
  | upTo m =>
      rw [CutItem.text, members_cons, readFrom, step_loneDash hl]
      exact readFrom_position _ m

/-- After an item has been read, the state tells of that item too. -/
theorem Tells.item (h : s.Tells seen) (hl : s.last = -1) (x : CutItem) :
    (s.item x).Tells (seen ++ [x]) := by
  cases x with
  | one n =>
      refine ⟨(h.numbers n.digits).follow rfl, h.starts_numbers rfl _, ?_⟩
      rw [Cutting.item, toEnd_position, endsOpen_concat]
      rfl
  | onward n =>
      refine ⟨(h.numbers n.digits).dash.follow rfl, h.starts_dash n rfl, ?_⟩
      rw [endsOpen_concat]
      rfl
  | between n m =>
      have hholds := (h.numbers n.digits).dash.numbers m.digits
      refine ⟨Holds.follow rfl ?_, ?_, ?_⟩
      · rw [List.append_assoc (recent seen)] at hholds
        exact ⟨hholds.undashed, hholds.last, hholds.order.trans (ofList_added_append _ _ _ _)⟩
      · rw [Cutting.item, Cutting.starts_numbers]
        exact h.starts_dash n rfl
      · rw [Cutting.item, toEnd_position, endsOpen_concat]
        rfl
  | upTo m =>
      have hup : (CutItem.upTo m).isUpTo = true := rfl
      obtain ⟨d, ds, hdigits, -⟩ := m.exists_digits
      have hholds := holds_dashed h.order hl d ds
      rw [← hdigits] at hholds
      refine ⟨⟨hholds.undashed, ?_, hholds.order.trans (ofList_reach_upTo hup).symm⟩, ?_, ?_⟩
      · rw [recent_concat]
        exact hholds.last
      · rw [Cutting.item, Cutting.starts_numbers, h.starts, firstStart_concat]
        simp [CutItem.start?]
      · rw [Cutting.item, toEnd_position, endsOpen_concat]
        rfl

theorem Tells.comma (h : s.Tells seen) : { s with last := -1 }.Tells seen :=
  ⟨⟨h.undashed, h.last, h.order⟩, h.starts, h.toEnd⟩

/-- After a list of items has been read, the state tells of all of them. -/
theorem Tells.readFrom_listText (h : s.Tells seen) (hl : s.last = -1) {items : List CutItem}
    (hne : items ≠ []) :
    ∃ t, s.readFrom (Value.text (listText items)).members = .ok t ∧ t.Tells (seen ++ items) := by
  induction items generalizing s seen with
  | nil => exact absurd rfl hne
  | cons x items ih =>
      have hread := h.readFrom_item hl x
      have htells := h.item hl x
      cases items with
      | nil => exact ⟨s.item x, hread, htells⟩
      | cons y items =>
          obtain ⟨u, hrest, htold⟩ := ih htells.comma rfl (by simp)
          refine ⟨u, ?_, by simpa using htold⟩
          rw [listText, members_append, readFrom_append hread, members_cons, readFrom, step_comma]
          exact hrest

end Items

/-- Every list of positions can be read, and the state that this ends in tells of its items. -/
theorem read_listText {items : List CutItem} (h : items ≠ []) :
    ∃ s, read (Value.text (listText items)).members = .ok s ∧ s.Tells items :=
  tells_empty.readFrom_listText rfl h

end Cutting

end CommandShell.Application
