import CommandShell.Text.Basic

/-! # Wildcards

A wildcard describes whole names: `*` any characters, `?` one, `[…]` one of a set, `[!…]` one
not in it. -/

namespace CommandShell

inductive Wild where
  | star
  | any
  | char (c : Char)
  /-- One character in a range, or in none of the ranges. -/
  | set (negated : Bool) (ranges : List (Char × Char))
deriving DecidableEq, Repr

namespace Wild

/-- The number of characters before the bracket that closes a set. A bracket that comes first,
perhaps after an exclamation mark, closes nothing. -/
def setLength? (t : Text) : Option Nat :=
  let afterMark := if t.head? = some '!' then 1 else 0
  let start := if (t.drop afterMark).head? = some ']' then afterMark + 1 else afterMark
  ((t.drop start).findIdx? (· = ']')).map (· + start)

/-- Parts between hyphens; `wait` characters belong to a part whatever they are. -/
def parts (wait : Nat) (part : Text) : Text → List Text
  | [] => [part.reverse]
  | c :: cs =>
      match wait with
      | n + 1 => parts n (c :: part) cs
      | 0 => if c = '-' then part.reverse :: parts 2 [] cs else parts 0 (c :: part) cs

/-- A hyphen at the end belongs to the part before it. -/
def closeParts : List Text → List Text
  | [p, []] => [p ++ ['-']]
  | p :: ps => p :: closeParts ps
  | [] => []

/-- Two parts that make an empty range are joined without its ends. -/
def joinEmptyRanges : List Text → List Text
  | [] => []
  | p :: ps =>
      match p.getLast?, joinEmptyRanges ps with
      | some a, (b :: bs) :: rest =>
          if b.toNat < a.toNat then (p.dropLast ++ bs) :: rest else p :: (b :: bs) :: rest
      | _, rest => p :: rest

/-- The characters of a set, with a mark where two of them make a range. -/
def setMarks (t : Text) : List (Option Char) :=
  if t.contains '-' then
    let wait := if t.head? = some '!' then 2 else 1
    match joinEmptyRanges (closeParts (parts wait [] t)) with
    | [] => []
    | p :: ps => p.map some ++ ps.flatMap (fun q => none :: q.map some)
  else t.map some

def marked (m : Option Char) : Char := m.getD '-'

def setRanges : List (Option Char) → List (Char × Char)
  | [] => []
  | m :: none :: n :: rest => (marked m, marked n) :: setRanges rest
  | m :: rest => (marked m, marked m) :: setRanges rest

/-- What stands between brackets. -/
def ofSet (t : Text) : Wild :=
  match setMarks t with
  | some '!' :: [] => .any
  | some '!' :: rest => .set true (setRanges rest)
  | marks => .set false (setRanges marks)

/-- Read a wildcard; `skip` counts the characters of a set still to be passed over. -/
def readFrom (skip : Nat) : Text → List Wild
  | [] => []
  | c :: cs =>
      match skip with
      | n + 1 => readFrom n cs
      | 0 =>
          if c = '*' then .star :: readFrom 0 cs
          else if c = '?' then .any :: readFrom 0 cs
          else if c = '[' then
            match setLength? cs with
            | some n => ofSet (cs.take n) :: readFrom (n + 1) cs
            | none => .char c :: readFrom 0 cs
          else .char c :: readFrom 0 cs

def ofText (t : Text) : List Wild := readFrom 0 t

def accepts : Wild → Char → Bool
  | .star, _ => false
  | .any, _ => true
  | .char d, c => d = c
  | .set negated ranges, c =>
      ranges.any (fun r => r.1.toNat ≤ c.toNat && c.toNat ≤ r.2.toNat) != negated

/-- Does some end of a text satisfy the test? -/
def anyEnd (p : Text → Bool) : Text → Bool
  | [] => p []
  | c :: cs => p (c :: cs) || anyEnd p cs

/-- Does a wildcard describe a whole name? -/
def describes : List Wild → Text → Bool
  | [], t => t.isEmpty
  | .star :: ws, t => anyEnd (describes ws) t
  | _ :: _, [] => false
  | w :: ws, c :: cs => w.accepts c && describes ws cs

theorem anyEnd_eq_true_iff {p : Text → Bool} :
    ∀ {t : Text}, anyEnd p t = true ↔ ∃ u v, t = u ++ v ∧ p v = true
  | [] => by
      constructor
      · intro h
        exact ⟨[], [], rfl, h⟩
      · rintro ⟨u, v, h, hp⟩
        have hv : v = [] := (List.append_eq_nil_iff.1 h.symm).2
        rw [hv] at hp
        exact hp
  | c :: cs => by
      rw [anyEnd, Bool.or_eq_true, anyEnd_eq_true_iff]
      constructor
      · rintro (h | ⟨u, v, rfl, hp⟩)
        · exact ⟨[], c :: cs, rfl, h⟩
        · exact ⟨c :: u, v, rfl, hp⟩
      · rintro ⟨u, v, h, hp⟩
        cases u with
        | nil =>
            rw [List.nil_append] at h
            exact Or.inl (h ▸ hp)
        | cons d u =>
            rw [List.cons_append, List.cons.injEq] at h
            exact Or.inr ⟨u, v, h.2, hp⟩

end Wild

/-- Does a wildcard, given as text, describe a name? -/
def Wild.nameMatches (wildcard name : Text) : Bool := Wild.describes (Wild.ofText wildcard) name

end CommandShell
