import CommandShell.Wildcard
import Mathlib.Data.List.Forall2

/-! # What a wildcard describes

A wildcard without sets describes a name if the name can be divided into pieces, one for each
character of the wildcard. The matcher tries the ends of the name one after another at every star,
and so finds such a division if there is one. -/

namespace CommandShell.Wild

/-- A star stands for any piece, a question mark for one character, and any other character for
itself. -/
def StandsFor (c : Char) (piece : Text) : Prop :=
  c = '*' ∨ c = '?' ∧ piece.length = 1 ∨ piece = [c]

/-- The name is made of pieces for which the characters of the wildcard stand. -/
def Fits (wildcard name : Text) : Prop :=
  ∃ pieces, List.Forall₂ StandsFor wildcard pieces ∧ pieces.flatten = name

theorem fits_nil {name : Text} : Fits [] name ↔ name = [] := by
  constructor
  · rintro ⟨pieces, hpieces, rfl⟩
    rw [List.forall₂_nil_left_iff.mp hpieces, List.flatten_nil]
  · rintro rfl
    exact ⟨[], List.Forall₂.nil, rfl⟩

theorem fits_cons {c : Char} {wildcard name : Text} :
    Fits (c :: wildcard) name ↔
      ∃ piece rest, name = piece ++ rest ∧ StandsFor c piece ∧ Fits wildcard rest := by
  constructor
  · rintro ⟨pieces, hpieces, rfl⟩
    obtain ⟨piece, rest, hpiece, hrest, rfl⟩ := List.forall₂_cons_left_iff.mp hpieces
    exact ⟨piece, rest.flatten, List.flatten_cons, hpiece, rest, hrest, rfl⟩
  · rintro ⟨piece, _, rfl, hpiece, rest, hrest, rfl⟩
    exact ⟨piece :: rest, hrest.cons hpiece, List.flatten_cons⟩

/-! ### One character of the wildcard -/

section Characters

variable {c d : Char} {wildcard name : Text}

theorem ofText_star (wildcard : Text) : ofText ('*' :: wildcard) = .star :: ofText wildcard := rfl

theorem ofText_any (wildcard : Text) : ofText ('?' :: wildcard) = .any :: ofText wildcard := rfl

theorem ofText_char (hstar : c ≠ '*') (hany : c ≠ '?') (hset : c ≠ '[') (wildcard : Text) :
    ofText (c :: wildcard) = .char c :: ofText wildcard := by
  rw [ofText, readFrom, if_neg hstar, if_neg hany, if_neg hset, ← ofText]

theorem nameMatches_star :
    nameMatches ('*' :: wildcard) name = true ↔
      ∃ piece rest, name = piece ++ rest ∧ nameMatches wildcard rest = true := by
  rw [nameMatches, ofText_star, describes]
  exact anyEnd_eq_true_iff

/-- A wildcard that starts with a single character of whatever sort. -/
theorem nameMatches_one {wild : Wild} (hstar : wild ≠ .star)
    (h : ofText (c :: wildcard) = wild :: ofText wildcard) :
    nameMatches (c :: wildcard) name = true ↔
      ∃ d rest, name = d :: rest ∧ wild.accepts d = true ∧ nameMatches wildcard rest = true := by
  rw [nameMatches, h]
  cases name with
  | nil => cases wild <;> simp [describes] at hstar ⊢
  | cons d rest =>
      have hcons : describes (wild :: ofText wildcard) (d :: rest) =
          (wild.accepts d && nameMatches wildcard rest) := by
        cases wild with
        | star => exact absurd rfl hstar
        | any | char | set => rfl
      rw [hcons, Bool.and_eq_true]
      constructor
      · rintro ⟨hd, hrest⟩
        exact ⟨d, rest, rfl, hd, hrest⟩
      · rintro ⟨_, _, heq, hd, hrest⟩
        obtain ⟨rfl, rfl⟩ := List.cons.inj heq
        exact ⟨hd, hrest⟩

theorem standsFor_star (piece : Text) : StandsFor '*' piece := Or.inl rfl

theorem standsFor_any {piece : Text} : StandsFor '?' piece ↔ ∃ d, piece = [d] := by
  constructor
  · rintro (hstar | ⟨-, hlength⟩ | rfl)
    · exact absurd hstar (by decide)
    · exact List.length_eq_one_iff.mp hlength
    · exact ⟨'?', rfl⟩
  · rintro ⟨d, rfl⟩
    exact Or.inr (Or.inl ⟨rfl, rfl⟩)

theorem standsFor_char (hstar : c ≠ '*') (hany : c ≠ '?') {piece : Text} :
    StandsFor c piece ↔ piece = [c] := by
  simp [StandsFor, hstar, hany]

end Characters

/-- A wildcard without sets describes just the names that fit it. -/
theorem nameMatches_iff_fits {wildcard name : Text} (h : '[' ∉ wildcard) :
    nameMatches wildcard name = true ↔ Fits wildcard name := by
  induction wildcard generalizing name with
  | nil => simp [fits_nil, nameMatches, ofText, readFrom, describes]
  | cons c wildcard ih =>
      obtain ⟨hset, hrest⟩ := not_or.mp (mt List.mem_cons.mpr h)
      rw [fits_cons]
      by_cases hstar : c = '*'
      · subst hstar
        simp only [nameMatches_star, ih hrest, standsFor_star, true_and]
      · by_cases hany : c = '?'
        · subst hany
          simp only [nameMatches_one (by simp) (ofText_any wildcard), ih hrest, accepts, true_and,
            standsFor_any]
          constructor
          · rintro ⟨d, rest, rfl, hfits⟩
            exact ⟨[d], rest, rfl, ⟨d, rfl⟩, hfits⟩
          · rintro ⟨_, rest, rfl, ⟨d, rfl⟩, hfits⟩
            exact ⟨d, rest, rfl, hfits⟩
        · have hchar := ofText_char hstar hany (Ne.symm hset) wildcard
          simp only [nameMatches_one (by simp) hchar, ih hrest, accepts, decide_eq_true_eq,
            standsFor_char hstar hany]
          constructor
          · rintro ⟨d, rest, rfl, rfl, hfits⟩
            exact ⟨[c], rest, rfl, rfl, hfits⟩
          · rintro ⟨_, rest, rfl, rfl, hfits⟩
            exact ⟨c, rest, rfl, rfl, hfits⟩

/-- A lone star describes every name. -/
theorem nameMatches_star_alone (name : Text) : nameMatches ['*'] name = true :=
  nameMatches_star.mpr ⟨name, [], (List.append_nil name).symm, rfl⟩

end CommandShell.Wild
