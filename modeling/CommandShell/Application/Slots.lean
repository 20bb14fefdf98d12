/-! # Numbers in slots

A set of numbers is kept in a table and listed slot by slot. A number goes to the slot that its
remainder points to or, if this one is taken, to the next free one of those that are tried after it.
A table that is filled to three fifths is replaced by a larger one. So the order of a listing is not
always that of the numbers, and it depends on the order in which they came. -/

namespace CommandShell

/-- A table of slots, each free or with a number. -/
abbrev Slots := List (Option Nat)

namespace Slots

/-- A table with all slots free. -/
def blank (size : Nat) : Slots := List.replicate size none

/-- The numbers, slot by slot. -/
def numbers (s : Slots) : List Nat := s.filterMap id

/-- What a number is looked up by. -/
def mark (n : Nat) : Nat := n % 2305843009213693951

/-- The slots of one round: ten in a row where the table has as many, otherwise one. -/
def tried (size i : Nat) : List Nat := if i + 9 < size then List.range' i 10 else [i]

/-- The first free slot in a number of rounds. The first round starts at `i`, and `rest` is what is
left of the mark for the rounds to come. -/
def seek (s : Slots) : Nat → Nat → Nat → Option Nat
  | 0, _, _ => none
  | rounds + 1, rest, i =>
      match (tried s.length i).find? (fun j => s[j]? = some none) with
      | some j => some j
      | none => seek s rounds (rest / 32) ((5 * i + 1 + rest / 32) % s.length)

/-- The slot for a number. After thirteen rounds nothing is left of a mark, and the rounds after them
come to every slot; that the first free slot is taken otherwise is for completeness only. -/
def slotFor (s : Slots) (n : Nat) : Nat :=
  (s.seek (13 + s.length) (mark n) (mark n % s.length)).getD (s.idxOf none)

def place (s : Slots) (n : Nat) : Slots := s.set (s.slotFor n) (some n)

/-- The size of a new table: the least power of two above a multiple of how many numbers there are. -/
def sizeFor (used : Nat) : Nat :=
  Nat.pow 2 (Nat.log2 (if 50000 < used then 2 * used else 4 * used) + 1)

/-- The numbers in a new table, put there slot by slot. -/
def grow (s : Slots) : Slots := s.numbers.foldl place (blank (sizeFor s.numbers.length))

/-- Is less than three fifths of a table taken? Its last slot does not count. -/
def isRoomy (s : Slots) : Bool := 5 * s.numbers.length < 3 * (s.length - 1)

def add (s : Slots) (n : Nat) : Slots :=
  if s.contains (some n) then s
  else if (s.place n).isRoomy then s.place n
  else (s.place n).grow

/-- Numbers put into a table one after another. -/
def ofList (ns : List Nat) : Slots := ns.foldl add (blank 8)

end Slots

end CommandShell
