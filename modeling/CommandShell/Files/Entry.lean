import CommandShell.Files.Content

/-! # Files and folders

A folder lists its entries by name, in code-point order. A place is the list of names that
leads to an entry. -/

namespace CommandShell

inductive Entry where
  | file (c : Content)
  | folder (items : List (Text × Entry))

abbrev Place := List Text

namespace Entry

def items : Entry → List (Text × Entry)
  | .file _ => []
  | .folder xs => xs

def isFile : Entry → Bool
  | .file _ => true
  | .folder _ => false

def isFolder : Entry → Bool
  | .file _ => false
  | .folder _ => true

/-- The listing with an entry added in its place, or with the entry of that name replaced. -/
def insertItem (name : Text) (e : Entry) : List (Text × Entry) → List (Text × Entry)
  | [] => [(name, e)]
  | (m, f) :: rest =>
      if m = name then (name, e) :: rest
      else if Text.ble name m then (name, e) :: (m, f) :: rest
      else (m, f) :: insertItem name e rest

theorem lookup_insertItem_self (name : Text) (e : Entry) (xs : List (Text × Entry)) :
    (insertItem name e xs).lookup name = some e := by
  induction xs with
  | nil => simp [insertItem]
  | cons x rest ih =>
      obtain ⟨m, f⟩ := x
      by_cases hm : m = name
      · simp [insertItem, hm]
      · have hn : (name == m) = false := by simpa using fun h => hm h.symm
        by_cases hb : Text.ble name m = true
        · simp [insertItem, hm, hb]
        · simp [insertItem, hm, hb, List.lookup_cons, hn, ih]

theorem lookup_insertItem_of_ne {name other : Text} (h : other ≠ name) (e : Entry)
    (xs : List (Text × Entry)) :
    (insertItem name e xs).lookup other = xs.lookup other := by
  have ho : (other == name) = false := by simpa using h
  induction xs with
  | nil => simp [insertItem, List.lookup_cons, ho]
  | cons x rest ih =>
      obtain ⟨m, f⟩ := x
      by_cases hm : m = name
      · simp [insertItem, hm, List.lookup_cons, ho]
      · by_cases hb : Text.ble name m = true
        · simp [insertItem, hm, hb, List.lookup_cons, ho]
        · cases hom : other == m <;> simp [insertItem, hm, hb, List.lookup_cons, hom, ih]

/-- The entry at a place. -/
def get? : Place → Entry → Option Entry
  | [], e => some e
  | n :: ns, e => (e.items.lookup n).bind (get? ns)

/-- The entry with `new` put at a place; folders on the way are made. -/
def put (new : Entry) : Place → Entry → Entry
  | [], _ => new
  | n :: ns, e =>
      .folder (insertItem n (put new ns ((e.items.lookup n).getD (.folder []))) e.items)

theorem get?_put_self (new : Entry) : ∀ (p : Place) (e : Entry), (put new p e).get? p = some new
  | [], e => rfl
  | n :: ns, e => by
      simp [put, get?, items, lookup_insertItem_self, get?_put_self new ns]

/-- The entry without what is at a place. -/
def erase : Place → Entry → Entry
  | [], e => e
  | [n], e => .folder (e.items.filter (fun x => x.1 ≠ n))
  | n :: m :: ns, e =>
      match e.items.lookup n with
      | some f => .folder (insertItem n (erase (m :: ns) f) e.items)
      | none => e

mutual
/-- All that is below a place: every file with its content, every folder without. -/
def contents (place : Place) : Entry → List (Place × Option Content)
  | .file c => [(place, some c)]
  | .folder xs => (place, none) :: contentsAll place xs

def contentsAll (place : Place) : List (Text × Entry) → List (Place × Option Content)
  | [] => []
  | (n, e) :: rest => contents (place ++ [n]) e ++ contentsAll place rest
end

end Entry

end CommandShell
