import CommandShell.Proofs.Moves

/-! # Places in the rules

What is left of a rule while it is read is one of finitely many lists of items. They are listed
here for every rule, with what a decision can make of each when the kind of the next token is
known. -/

namespace CommandShell

namespace Item

mutual
theorem same_iff : ∀ x y : Item, same x y = true ↔ x = y
  | .token _, y => by cases y <;> simp [same]
  | .oneOf _, y => by cases y <;> simp [same]
  | .rule _ _, y => by cases y <;> simp [same]
  | .choice _ xs, y => by cases y <;> simp [same, sameAlternatives_iff xs]
  | .optional _ xs, y => by cases y <;> simp [same, sameAll_iff xs]
  | .loop _ xs, y => by cases y <;> simp [same, sameAll_iff xs]
  | .again _ xs, y => by cases y <;> simp [same, sameAll_iff xs]
  | .fold _, y => by cases y <;> simp [same]

theorem sameAll_iff : ∀ xs ys : List Item, sameAll xs ys = true ↔ xs = ys
  | [], ys => by cases ys <;> simp [sameAll]
  | x :: xs, ys => by cases ys <;> simp [sameAll, same_iff x, sameAll_iff xs]

theorem sameAlternatives_iff :
    ∀ xs ys : List (List Item), sameAlternatives xs ys = true ↔ xs = ys
  | [], ys => by cases ys <;> simp [sameAlternatives]
  | x :: xs, ys => by cases ys <;> simp [sameAlternatives, sameAll_iff x, sameAlternatives_iff xs]
end

instance : DecidableEq Item := fun x y => decidable_of_iff _ (same_iff x y)

end Item

namespace Grammar

/-- What can be left of a rule after one step in it. -/
def successors : List Item → List (List Item)
  | [] => []
  | .choice _ alternatives :: rest => alternatives.map (· ++ rest)
  | .optional _ body :: rest => [body ++ rest, rest]
  | .loop g body :: rest => [body ++ .again g body :: rest, rest]
  | .again g body :: rest => [body ++ .again g body :: rest, rest]
  | _ :: rest => [rest]

/-- Places together with their successors, each once. -/
def spread (seen : List (List Item)) : List (List Item) :=
  (seen ++ seen.flatMap successors).foldr (fun x xs => if x ∈ xs then xs else x :: xs) []

theorem mem_spread {todo : List Item} {seen : List (List Item)} :
    todo ∈ spread seen ↔ todo ∈ seen ∨ ∃ x ∈ seen, todo ∈ successors x := by
  have hfold : ∀ xs : List (List Item),
      todo ∈ xs.foldr (fun x ys => if x ∈ ys then ys else x :: ys) [] ↔ todo ∈ xs := by
    intro xs
    induction xs with
    | nil => rfl
    | cons x xs ih =>
        rw [List.foldr_cons, List.mem_cons, ← ih]
        split
        · next hx => exact ⟨Or.inr, fun h => h.elim (fun he => he ▸ hx) id⟩
        · rw [List.mem_cons]
  rw [spread, hfold, List.mem_append, List.mem_flatMap]

/-- All that can be left of a rule while it is read. No place is further than twelve steps from
the start. -/
def places (r : Rule) : List (List Item) := Nat.repeat spread 12 [body r]

theorem mem_spread_of_mem {todo : List Item} {seen : List (List Item)} (h : todo ∈ seen) :
    todo ∈ spread seen := by
  rw [mem_spread]
  exact Or.inl h

theorem body_mem_places (r : Rule) : body r ∈ places r := by
  have hrepeat : ∀ n, body r ∈ Nat.repeat spread n [body r] := by
    intro n
    induction n with
    | zero => exact List.mem_singleton.mpr rfl
    | succ n ih => exact mem_spread_of_mem ih
  exact hrepeat 12

theorem mem_places_of_successor {r : Rule} {todo next : List Item} (h : todo ∈ places r)
    (hn : next ∈ successors todo) : next ∈ places r := by
  have closed : ∀ r : Rule, ∀ todo ∈ places r, ∀ next ∈ successors todo, next ∈ places r := by
    intro r
    cases r <;> decide +kernel
  exact closed r todo h next hn

/-! ### The places along the items

Going along the items of a rule gives its places too, some of them more than once. Nothing has to
be compared for that, so what holds of all places is decided there. -/

mutual
/-- The places inside an item, as far as the item goes. -/
def inside : Item → List (List Item)
  | .choice _ alternatives => alongSome alternatives
  | .optional _ body => along body
  | .loop g body => (along body).map (· ++ [.again g body])
  | .again g body => (along body).map (· ++ [.again g body])
  | _ => []

def along : List Item → List (List Item)
  | [] => [[]]
  | x :: rest => (x :: rest) :: (inside x).map (· ++ rest) ++ along rest

def alongSome : List (List Item) → List (List Item)
  | [] => []
  | xs :: rest => along xs ++ alongSome rest
end

theorem along_closed {r : Rule} {todo next : List Item} (h : todo ∈ along (body r))
    (hn : next ∈ successors todo) : next ∈ along (body r) := by
  have closed : ∀ r : Rule, ∀ todo ∈ along (body r), ∀ next ∈ successors todo,
      next ∈ along (body r) := by
    intro r
    cases r <;> decide +kernel
  exact closed r todo h next hn

theorem body_mem_along (r : Rule) : body r ∈ along (body r) := by
  cases h : body r with
  | nil => exact List.mem_singleton.mpr rfl
  | cons x rest => exact List.mem_cons_self

theorem mem_along {r : Rule} {todo : List Item} (h : todo ∈ places r) : todo ∈ along (body r) := by
  have hrepeat : ∀ n, ∀ todo ∈ Nat.repeat spread n [body r], todo ∈ along (body r) := by
    intro n
    induction n with
    | zero =>
        intro todo h
        rw [List.mem_singleton.mp h]
        exact body_mem_along r
    | succ n ih =>
        intro todo h
        rcases mem_spread.mp h with h | ⟨seen, hseen, hn⟩
        · exact ih todo h
        · exact along_closed (ih seen hseen) hn
  exact hrepeat 12 todo h

/-- Does a decision among alternatives have those that it knows? -/
def knows (alternatives : List (List Item)) : Guide → Bool
  | .one => true
  | .two => false
  | .callOrPipe => alternatives = [[.rule .pipe 0], [.rule .call 0]]
  | .piece => alternatives = [[.rule .quoted 0], [.rule .unquoted 0]]
  | .quotation =>
      alternatives = [[.rule .singleQuoted 0], [.rule .doubleQuoted 0], [.rule .backQuoted 0]]
  | .inside =>
      alternatives = [[.rule .backQuoted 0], [.token .word], [.token .semicolon], [.token .bar],
        [.token .less], [.token .greater], [.token .singleMark], [.token .blank]]

/-- Does the decision at a place, if there is one, have the alternatives that it knows? -/
def familiar : List Item → Bool
  | .choice g alternatives :: _ => knows alternatives g
  | _ => true

theorem knows_of_mem_places {r : Rule} {g : Guide} {alternatives : List (List Item)}
    {rest : List Item} (h : .choice g alternatives :: rest ∈ places r) :
    knows alternatives g = true := by
  have all : ∀ r : Rule, ∀ todo ∈ along (body r), familiar todo = true := by
    intro r
    cases r <;> decide +kernel
  exact all r _ (mem_along h)

/-- Does a body go on only up to a binding level? -/
def isBound : List Item → Bool
  | .fold _ :: _ => true
  | _ => false

/-- What a decision can make of a place when the next token is of a kind. -/
def turns (k : Kind) : List Item → List (List Item)
  | .choice _ alternatives :: rest =>
      (alternatives.filter fun xs => (firstAll xs).contains k).map (· ++ rest)
  | .optional g body :: rest =>
      (if (firstAll body).contains k then [body ++ rest] else []) ++
        (if g = .two || isBound body || !(firstAll body).contains k then [rest] else [])
  | .loop g body :: rest | .again g body :: rest =>
      (if (firstAll body).contains k then [body ++ .again g body :: rest] else []) ++
        (if g = .two || isBound body || !(firstAll body).contains k then [rest] else [])
  | _ => []

end Grammar

namespace Parse

open Grammar

/-- What a decision makes of a place, if there is a way to go. -/
def resolve (level : Nat) (mayEnd : Bool) (ks : List Kind) : List Item → Option (List Item)
  | .choice g alternatives :: rest =>
      match choose g mayEnd alternatives ks with
      | .way n => some ((alternatives.map (· ++ rest))[n]?.getD [])
      | .stuck _ => none
  | .optional g body :: rest =>
      match optionalForecast g level body rest ks with
      | .way n => some ([body ++ rest, rest][n]?.getD [])
      | .stuck _ => none
  | .loop g body :: rest | .again g body :: rest =>
      some (if enters g level body ks then body ++ .again g body :: rest else rest)
  | _ => none

/-! ### A way starts with the next token -/

section Starts

variable {ks : List Kind} {n : Nat}

theorem callOrPipe_starts (h : callOrPipe .start 0 ks = .way n) :
    ∃ xs, [[Item.rule .pipe 0], [.rule .call 0]][n]? = some xs ∧ kindAt ks 0 ∈ firstAll xs := by
  have hn := callOrPipe_lt h
  cases ks with
  | nil => cases h
  | cons k ks =>
      have hk : Outlook.start.next k ≠ none := by
        intro hnone
        simp [callOrPipe, hnone, Outlook.complete] at h
      have hstart : k ∈ starts .call := by
        revert hk
        cases k <;> decide
      match n, hn with
      | 0, _ => exact ⟨_, rfl, by simpa [firstAll, first, canSkip, kindAt, starts] using hstart⟩
      | 1, _ => exact ⟨_, rfl, by simpa [firstAll, first, canSkip, kindAt, starts] using hstart⟩

theorem pieceForecast_starts {mayEnd : Bool} (h : pieceForecast mayEnd ks = .way n) :
    ∃ xs, [[Item.rule .quoted 0], [.rule .unquoted 0]][n]? = some xs ∧
      kindAt ks 0 ∈ firstAll xs := by
  have hn := pieceForecast_lt h
  have hquoted : n = 0 → kindAt ks 0 ∈ starts .quoted := by
    rintro rfl
    revert h
    unfold pieceForecast
    cases kindAt ks 0 <;> simp [starts]
  have hword : n = 1 → kindAt ks 0 = .word := by
    rintro rfl
    revert h
    unfold pieceForecast
    cases kindAt ks 0 <;> simp
  match n, hn with
  | 0, _ => exact ⟨_, rfl, by simpa [firstAll, first, canSkip] using hquoted rfl⟩
  | 1, _ => exact ⟨_, rfl, by simp [firstAll, first, starts, hword rfl]⟩

theorem quotationForecast_starts (h : quotationForecast ks = .way n) :
    ∃ xs, [[Item.rule .singleQuoted 0], [.rule .doubleQuoted 0], [.rule .backQuoted 0]][n]? =
      some xs ∧ kindAt ks 0 ∈ firstAll xs := by
  revert h
  unfold quotationForecast
  cases kindAt ks 0 with
  | singleMark | doubleMark | backMark =>
      rintro ⟨⟩
      exact ⟨_, rfl, by decide⟩
  | word =>
      cases kindAt ks 1 with
      | doubleMark | backMark =>
          rintro ⟨⟩
          exact ⟨_, rfl, by decide⟩
      | _ => rintro ⟨⟩
  | _ => rintro ⟨⟩

theorem insideForecast_starts (h : insideForecast ks = .way n) :
    ∃ xs, [[Item.rule .backQuoted 0], [.token .word], [.token .semicolon], [.token .bar],
      [.token .less], [.token .greater], [.token .singleMark], [.token .blank]][n]? = some xs ∧
        kindAt ks 0 ∈ firstAll xs := by
  revert h
  unfold insideForecast
  cases kindAt ks 0 with
  | word =>
      cases kindAt ks 1 with
      | lineBreak | finish => rintro ⟨⟩
      | _ =>
          rintro ⟨⟩
          exact ⟨_, rfl, by decide⟩
  | doubleMark | lineBreak | finish => rintro ⟨⟩
  | _ =>
      rintro ⟨⟩
      exact ⟨_, rfl, by decide⟩

theorem firstForecast_starts {alternatives : List (List Item)}
    (h : firstForecast alternatives ks = .way n) :
    ∃ xs, alternatives[n]? = some xs ∧ kindAt ks 0 ∈ firstAll xs := by
  unfold firstForecast at h
  split at h
  · next i hi =>
      obtain ⟨hlt, hfirst, _⟩ := List.findIdx?_eq_some_iff_getElem.mp hi
      rw [Forecast.way.injEq] at h
      subst h
      exact ⟨_, List.getElem?_eq_getElem hlt, by simpa using hfirst⟩
  · cases h

/-- The alternative that is chosen can start with the next token. -/
theorem choose_starts {g : Guide} {mayEnd : Bool} {alternatives : List (List Item)}
    (hg : knows alternatives g = true) (h : choose g mayEnd alternatives ks = .way n) :
    ∃ xs, alternatives[n]? = some xs ∧ kindAt ks 0 ∈ firstAll xs := by
  cases g with
  | one => exact firstForecast_starts h
  | two => cases hg
  | callOrPipe =>
      obtain rfl := of_decide_eq_true hg
      exact callOrPipe_starts h
  | piece =>
      obtain rfl := of_decide_eq_true hg
      exact pieceForecast_starts h
  | quotation =>
      obtain rfl := of_decide_eq_true hg
      exact quotationForecast_starts h
  | inside =>
      obtain rfl := of_decide_eq_true hg
      exact insideForecast_starts h

end Starts

/-- A part that is passed by cannot start with the next token, unless the decision looks at two
tokens or at the binding level. -/
theorem enters_eq_false {g : Guide} {level : Nat} {body : List Item} {ks : List Kind}
    (h : enters g level body ks = false) :
    g = .two ∨ isBound body = true ∨ kindAt ks 0 ∉ firstAll body := by
  by_cases hg : g = .two
  · exact Or.inl hg
  cases hb : isBound body with
  | true => exact Or.inr (Or.inl rfl)
  | false =>
      refine Or.inr (Or.inr ?_)
      intro hk
      have hopen : isOpen level body = true := by
        unfold isBound at hb
        unfold isOpen
        split at hb <;> simp_all
      cases g with
      | two => exact hg rfl
      | _ => simp [enters, hopen, hk] at h

theorem mem_firstAll_of_enters {g : Guide} {level : Nat} {body : List Item} {ks : List Kind}
    (h : enters g level body ks = true) : kindAt ks 0 ∈ firstAll body := by
  simp only [enters, Bool.and_eq_true] at h
  simpa using h.1.2

theorem optionalForecast_cases {g : Guide} {level n : Nat} {body rest : List Item} {ks : List Kind}
    (h : optionalForecast g level body rest ks = .way n) :
    (n = 0 ∧ kindAt ks 0 ∈ firstAll body) ∨
      (n = 1 ∧ (g = .two ∨ isBound body = true ∨ kindAt ks 0 ∉ firstAll body)) := by
  by_cases hg : g = .two
  · subst hg
    have hn := optionalForecast_lt h
    have hk : kindAt ks 0 ∈ firstAll body := by
      refine Decidable.byContradiction fun hk => ?_
      simp [optionalForecast, hk] at h
    match n, hn with
    | 0, _ => exact Or.inl ⟨rfl, hk⟩
    | 1, _ => exact Or.inr ⟨rfl, Or.inl rfl⟩
  · have hf : optionalForecast g level body rest ks =
        .way (if enters g level body ks then 0 else 1) := by
      cases g with
      | two => exact absurd rfl hg
      | _ => rfl
    rw [hf, Forecast.way.injEq] at h
    subst h
    cases he : enters g level body ks with
    | true => exact Or.inl ⟨rfl, mem_firstAll_of_enters he⟩
    | false => exact Or.inr ⟨rfl, enters_eq_false he⟩

/-- What a decision makes of a place is one of its turns. -/
theorem mem_turns_of_resolve {r : Rule} {level : Nat} {mayEnd : Bool} {ks : List Kind}
    {todo next : List Item} (hp : todo ∈ places r)
    (h : resolve level mayEnd ks todo = some next) : next ∈ turns (kindAt ks 0) todo := by
  have hround : ∀ (g : Guide) (body rest : List Item),
      (if enters g level body ks then body ++ .again g body :: rest else rest) ∈
        turns (kindAt ks 0) (.loop g body :: rest) := by
    intro g body rest
    cases he : enters g level body ks with
    | true => simp [turns, mem_firstAll_of_enters he]
    | false =>
        rcases enters_eq_false he with rfl | hb | hk
        · simp [turns]
        · simp [turns, hb]
        · simp [turns, hk]
  match todo, h with
  | .choice g alternatives :: rest, h =>
      cases hc : choose g mayEnd alternatives ks with
      | stuck offset => simp [resolve, hc] at h
      | way n =>
          obtain ⟨xs, hn, hk⟩ := choose_starts (knows_of_mem_places hp) hc
          have hnext : next = xs ++ rest := by simpa [resolve, hc, hn] using h.symm
          rw [hnext]
          have hxs : xs ∈ alternatives.filter fun xs => (firstAll xs).contains (kindAt ks 0) :=
            List.mem_filter.mpr ⟨List.mem_of_getElem? hn, by simpa using hk⟩
          exact List.mem_map_of_mem hxs
  | .optional g body :: rest, h =>
      cases ho : optionalForecast g level body rest ks with
      | stuck offset => simp [resolve, ho] at h
      | way n =>
          have hnext : next = [body ++ rest, rest][n]?.getD [] := by
            simpa [resolve, ho] using h.symm
          rcases optionalForecast_cases ho with ⟨rfl, hk⟩ | ⟨rfl, hg | hb | hk⟩
          · simp [turns, hnext, hk]
          · simp [turns, hnext, hg]
          · simp [turns, hnext, hb]
          · simp [turns, hnext, hk]
  | .loop g body :: rest, h =>
      obtain rfl := Option.some.inj h
      exact hround g body rest
  | .again g body :: rest, h =>
      obtain rfl := Option.some.inj h
      exact hround g body rest

end Parse

end CommandShell
