import CommandShell.Files.Reading

/-! # What is written to a file is found there

A file is written at the place to which its path leads. The folders on the way stay folders, so the
path leads to the same place afterwards, and what is found there is what was written. -/

namespace CommandShell

/-! ### Entries -/

namespace Entry

theorem get?_concat (p : Place) (n : Text) (e : Entry) :
    e.get? (p ++ [n]) = (e.get? p).bind fun f => f.items.lookup n := by
  induction p generalizing e with
  | nil =>
      rw [List.nil_append, get?, get?, Option.bind_some]
      exact Option.bind_fun_some _
  | cons m p ih =>
      rw [List.cons_append, get?, get?, Option.bind_assoc]
      exact congrArg _ (funext ih)

/-- A folder keeps its names when something is put elsewhere than in its place. -/
theorem exists_folder_put (new : Entry) {root : Entry} {p q : Place}
    {inside : List (Text × Entry)}
    (hq : root.get? q = some (.folder inside)) (hp : ∀ xs, root.get? p ≠ some (.folder xs)) :
    ∃ inside', (put new p root).get? q = some (.folder inside') ∧
      ∀ n, (inside.lookup n).isSome → (inside'.lookup n).isSome := by
  induction p generalizing q root with
  | nil =>
      cases root with
      | folder xs => exact absurd rfl (hp xs)
      | file c =>
          cases q with
          | nil => cases hq
          | cons m q => cases hq
  | cons n p ih =>
      cases q with
      | nil =>
          obtain rfl : root = .folder inside := Option.some.inj hq
          refine ⟨_, rfl, fun m hm => ?_⟩
          by_cases hmn : m = n
          · rw [hmn, lookup_insertItem_self]
            rfl
          · rwa [lookup_insertItem_of_ne hmn]
      | cons m q =>
          rw [get?] at hq
          rw [put, get?, items]
          by_cases hmn : m = n
          · subst hmn
            obtain ⟨child, hchild, hfolder⟩ := Option.bind_eq_some_iff.mp hq
            rw [lookup_insertItem_self, hchild, Option.bind_some]
            apply ih hfolder
            intro xs hxs
            apply hp xs
            rw [get?, hchild]
            exact hxs
          · rw [lookup_insertItem_of_ne hmn]
            exact ⟨inside, hq, fun _ h => h⟩

end Entry

/-! ### Names -/

theorem Text.splitOnMark_ne_nil (mark : Char) (t : Text) : splitOnMark mark t ≠ [] := by
  fun_cases splitOnMark mark t <;> simp

/-- Only a mark at the end leaves an empty last part. -/
theorem Text.getLast?_splitOnMark {mark : Char} {t : Text} (ht : t ≠ [])
    (hmark : t.getLast? ≠ some mark) : (splitOnMark mark t).getLast? ≠ some [] := by
  induction t with
  | nil => exact absurd rfl ht
  | cons c cs ih =>
      cases hcs : cs with
      | nil =>
          have hc : c ≠ mark := by simpa [hcs] using hmark
          simp [splitOnMark, hc]
      | cons d ds =>
          rw [← hcs]
          have hne : cs ≠ [] := by simp [hcs]
          have hrest := ih hne (by rwa [List.getLast?_cons_of_ne_nil hne] at hmark)
          have hparts := splitOnMark_ne_nil mark cs
          rw [splitOnMark]
          split
          · rwa [List.getLast?_cons_of_ne_nil hparts]
          · cases hsplit : splitOnMark mark cs with
            | nil => exact absurd hsplit hparts
            | cons p ps =>
                rw [hsplit] at hrest
                cases ps with
                | nil => simp
                | cons q qs => simpa [List.getLast?_cons_cons] using hrest

namespace World

theorem trimNames_of_getLast? {ns : List Text} (h : ns.getLast? ≠ some []) : trimNames ns = ns := by
  rw [trimNames]
  cases hrev : ns.reverse with
  | nil => simpa using congrArg List.reverse hrev.symm
  | cons n rest =>
      have hn : n ≠ [] := by
        intro hnil
        apply h
        rw [List.getLast?_eq_head?_reverse, hrev, hnil]
        rfl
      rw [List.dropWhile_cons_of_neg (by simpa using hn), ← hrev, List.reverse_reverse]

/-! ### Following a path -/

theorem follow_append (root : Entry) (place : Place) (ns ms : List Text) :
    follow root place (ns ++ ms) = (follow root place ns).bind fun p => follow root p ms := by
  induction ns generalizing place with
  | nil => rfl
  | cons n ns ih =>
      rw [List.cons_append, follow, follow]
      cases root.get? place with
      | none => rfl
      | some e =>
          cases e with
          | file c => rfl
          | folder items =>
              simp only [ih]
              repeat' split
              all_goals rfl

/-- One step into a folder. -/
theorem follow_cons {root : Entry} {place : Place} {items : List (Text × Entry)}
    (h : root.get? place = some (.folder items)) (n : Text) (ns : List Text) :
    follow root place (n :: ns) =
      if n = [] ∨ n = ['.'] then follow root place ns
      else if n = ['.', '.'] then
        if place.isEmpty then .error .notFound else follow root place.dropLast ns
      else if nameLimit < (Text.encode n).length then .error .nameTooLong
      else (items.lookup n).elim (.error .notFound) fun _ => follow root (place ++ [n]) ns := by
  rw [follow]
  simp only [h]
  cases items.lookup n <;> rfl

theorem exists_folder_of_follow {root : Entry} {place q : Place} {n : Text} {ns : List Text}
    (h : follow root place (n :: ns) = .ok q) :
    ∃ items, root.get? place = some (.folder items) := by
  rw [follow] at h
  cases he : root.get? place with
  | none => simp [he] at h
  | some e =>
      cases e with
      | file c => simp [he] at h
      | folder items => exact ⟨items, rfl⟩

/-- What could be followed can be followed after something has been put where no folder is. -/
theorem follow_put {root new : Entry} {p place q : Place} {ns : List Text}
    (hp : ∀ xs, root.get? p ≠ some (.folder xs)) (h : follow root place ns = .ok q) :
    follow (Entry.put new p root) place ns = .ok q := by
  induction ns generalizing place with
  | nil => exact h
  | cons n ns ih =>
      obtain ⟨items, hitems⟩ := exists_folder_of_follow h
      -- The folder keeps its names, so every branch is taken as before.
      obtain ⟨items', hput, hnames⟩ := Entry.exists_folder_put new hitems hp
      rw [follow_cons hitems] at h
      rw [follow_cons hput]
      split
      next hhere => exact ih (by rwa [if_pos hhere] at h)
      next hhere =>
        rw [if_neg hhere] at h
        split
        next hup =>
          rw [if_pos hup] at h
          split
          next htop =>
            rw [if_pos htop] at h
            cases h
          next htop => exact ih (by rwa [if_neg htop] at h)
        next hup =>
          rw [if_neg hup] at h
          split
          next hlong =>
            rw [if_pos hlong] at h
            cases h
          next hlong =>
            rw [if_neg hlong] at h
            cases hl : items.lookup n with
            | none =>
                rw [hl] at h
                cases h
            | some e =>
                obtain ⟨e', he'⟩ := Option.isSome_iff_exists.mp (hnames n (by simp [hl]))
                rw [hl] at h
                rw [he']
                exact ih h

/-- A path to a place for a file: the folder in which it stands and its name. -/
structure LeadsTo (w : World) (path : Text) (p : Place) (n : Text) : Prop where
  bounded : ¬ pathLimit < (Text.encode path).length
  relative : ¬ (path.isEmpty || Path.isAbsolute path) = true
  names : Path.names path = (Path.names path).dropLast ++ [n]
  followed : follow w.root w.here (Path.names path).dropLast = .ok p
  isFolder : ∃ items, w.root.get? p = some (.folder items)
  proper : n ≠ [] ∧ n ≠ ['.'] ∧ n ≠ ['.', '.']
  short : ¬ nameLimit < (Text.encode n).length

/-- The place to which a path leads, if something is there. -/
theorem LeadsTo.locate_eq {w : World} {path : Text} {p : Place} {n : Text}
    (h : w.LeadsTo path p n) :
    w.locate path = (w.root.get? (p ++ [n])).elim (.error .notFound) fun _ => .ok (p ++ [n]) := by
  obtain ⟨items, hitems⟩ := h.isFolder
  obtain ⟨hne, hhere, hup⟩ := h.proper
  have hlookup : w.root.get? (p ++ [n]) = items.lookup n := by
    rw [Entry.get?_concat, hitems]
    rfl
  rw [locate, followPath, if_neg h.bounded, if_neg h.relative, h.names, follow_append, h.followed,
    hlookup]
  change follow w.root p [n] = _
  rw [follow_cons hitems, if_neg (by simp [hne, hhere]), if_neg hup, if_neg h.short]
  rfl

/-- What a path leads to, if something is there. -/
theorem LeadsTo.entryAt_eq {w : World} {path : Text} {p : Place} {n : Text}
    (h : w.LeadsTo path p n) :
    w.entryAt path = (w.root.get? (p ++ [n])).elim (.error .notFound) .ok := by
  rw [entryAt, h.locate_eq]
  cases he : w.root.get? (p ++ [n]) with
  | none => rfl
  | some e => simp [he]

/-- A path leads to the same place after a content has been written there. -/
theorem LeadsTo.setContent {w : World} {path : Text} {p : Place} {n : Text}
    (h : w.LeadsTo path p n) (hp : ∀ xs, w.root.get? (p ++ [n]) ≠ some (.folder xs)) (c : Content) :
    (w.setContent (p ++ [n]) c).LeadsTo path p n where
  bounded := h.bounded
  relative := h.relative
  names := h.names
  followed := follow_put hp h.followed
  isFolder := by
    obtain ⟨items, hitems⟩ := h.isFolder
    obtain ⟨items', hput, -⟩ := Entry.exists_folder_put (.file c) hitems hp
    exact ⟨items', hput⟩
  proper := h.proper
  short := h.short

/-- A path with a folder in which its last name stands. -/
theorem parentPlace_eq_ok {w : World} {path : Text} {p : Place} {n : Text}
    (h : w.parentPlace path = .ok (p, n)) :
    ¬ pathLimit < (Text.encode path).length ∧
      ¬ (path.isEmpty || Path.isAbsolute path) = true ∧
      follow w.root w.here (trimNames (Path.names path)).dropLast = .ok p ∧
      (∃ items, w.root.get? p = some (.folder items)) ∧
      n = (trimNames (Path.names path)).getLast?.getD [] := by
  rw [parentPlace, followPath] at h
  by_cases hbounded : pathLimit < (Text.encode path).length
  · simp [hbounded] at h
  by_cases hrelative : (path.isEmpty || Path.isAbsolute path) = true
  · simp [hbounded, hrelative] at h
  simp only [if_neg hbounded, if_neg hrelative] at h
  refine ⟨hbounded, hrelative, ?_⟩
  cases hfollow : follow w.root w.here (trimNames (Path.names path)).dropLast with
  | error e => simp [hfollow] at h
  | ok q =>
      simp only [hfollow] at h
      cases he : w.root.get? q with
      | none => simp [he] at h
      | some e =>
          cases e with
          | file c => simp [he] at h
          | folder items =>
              simp only [he, Except.ok.injEq, Prod.mk.injEq] at h
              obtain ⟨rfl, rfl⟩ := h
              exact ⟨rfl, ⟨items, he⟩, rfl⟩

theorem leadsTo_of_parentPlace {w : World} {path : Text} {p : Place} {n : Text}
    (h : w.parentPlace path = .ok (p, n))
    (hends : ¬ (path.getLast? = some '/' ∨ n = ['.'] ∨ n = ['.', '.']))
    (hshort : ¬ nameLimit < (Text.encode n).length) : w.LeadsTo path p n := by
  obtain ⟨hbounded, hrelative, hfollow, hfolder, hn⟩ := parentPlace_eq_ok h
  have hne : path ≠ [] := by
    rintro rfl
    exact hrelative rfl
  -- Without a slash at the end the last name is not empty, and no name is left out.
  have hlast : (Path.names path).getLast? ≠ some [] :=
    Text.getLast?_splitOnMark hne fun hslash => hends (Or.inl hslash)
  rw [trimNames_of_getLast? hlast] at hfollow hn
  have hnames : Path.names path ≠ [] := Text.splitOnMark_ne_nil '/' path
  have hsplit := List.dropLast_concat_getLast hnames
  rw [List.getLast?_eq_some_getLast hnames, Option.getD_some] at hn
  rw [← hn] at hsplit
  have hproper : n ≠ [] := by
    rintro rfl
    apply hlast
    rw [List.getLast?_eq_some_getLast hnames, ← hn]
  exact ⟨hbounded, hrelative, hsplit.symm, hfollow, hfolder,
    ⟨hproper, fun hdot => hends (Or.inr (Or.inl hdot)),
      fun hup => hends (Or.inr (Or.inr hup))⟩, hshort⟩

/-- Where a file can be written there is a file or nothing. -/
theorem exists_leadsTo {w : World} {path : Text} {place : Place} {old : Option Content}
    (h : w.writePlace path = .ok (place, old)) :
    ∃ p n, w.LeadsTo path p n ∧ place = p ++ [n] ∧ w.root.get? place = old.map .file := by
  rw [writePlace] at h
  cases hparent : w.parentPlace path with
  | error e => simp [hparent] at h
  | ok found =>
      obtain ⟨p, n⟩ := found
      simp only [hparent] at h
      split at h
      · cases h
      next hends =>
        split at h
        · cases h
        next hshort =>
          refine ⟨p, n, leadsTo_of_parentPlace hparent hends hshort, ?_⟩
          cases he : w.root.get? (p ++ [n]) with
          | none =>
              simp only [he, Except.ok.injEq, Prod.mk.injEq] at h
              obtain ⟨rfl, rfl⟩ := h
              exact ⟨rfl, he⟩
          | some e =>
              cases e with
              | folder items => simp [he] at h
              | file c =>
                  simp only [he, Except.ok.injEq, Prod.mk.injEq] at h
                  obtain ⟨rfl, rfl⟩ := h
                  exact ⟨rfl, he⟩

theorem get?_ne_folder {root : Entry} {place : Place} {old : Option Content}
    (h : root.get? place = old.map .file) (xs : List (Text × Entry)) :
    root.get? place ≠ some (.folder xs) := by
  intro hxs
  rw [h] at hxs
  cases old <;> cases hxs

/-! ### Writing -/

/-- What has been done where writing a text did not fail. -/
theorem exists_of_writeText {w w' : World} {path t : Text} {append : Bool}
    (h : w.writeText path append t = .ok w') :
    ∃ p n c, w.LeadsTo path p n ∧ (∀ xs, w.root.get? (p ++ [n]) ≠ some (.folder xs)) ∧
      w' = w.setContent (p ++ [n]) c := by
  rw [writeText] at h
  split at h
  · cases h
  · cases hplace : w.writePlace path with
    | error e => simp [hplace] at h
    | ok found =>
        obtain ⟨place, old⟩ := found
        obtain ⟨p, n, hleads, rfl, hold⟩ := exists_leadsTo hplace
        cases old <;> simp only [hplace, Except.ok.injEq] at h <;>
          exact ⟨p, n, _, hleads, get?_ne_folder hold, h.symm⟩

/-- Can a file be written at the path? -/
def CanWrite (w : World) (path : Text) : Prop :=
  Path.hasZero path = false ∧ ∃ found, w.writePlace path = .ok found

/-- The content of what a path leads to, with a text behind it. -/
def extended (found : Except SystemError Entry) (t : Text) : Content :=
  match found with
  | .ok (.file c) => c.append t
  | _ => .text t

/-- A text that is written to a file is all that is found there, or it is found behind what was
there before. -/
theorem exists_writeText {w : World} {path : Text} (h : w.CanWrite path) (append : Bool)
    (t : Text) :
    ∃ w', w.writeText path append t = .ok w' ∧
      w'.entryAt path =
        .ok (.file (if append then extended (w.entryAt path) t else .text t)) := by
  obtain ⟨hzero, ⟨place, old⟩, hplace⟩ := h
  obtain ⟨p, n, hleads, rfl, hold⟩ := exists_leadsTo hplace
  have hfree := get?_ne_folder hold
  have hset : ∀ c, (w.setContent (p ++ [n]) c).entryAt path = .ok (.file c) := by
    intro c
    rw [(hleads.setContent hfree c).entryAt_eq, setContent, Entry.get?_put_self]
    rfl
  have hwrite : w.writeText path append t = .ok (w.setContent (p ++ [n])
      (if append then extended (w.entryAt path) t else .text t)) := by
    rw [writeText, hzero, hplace, hleads.entryAt_eq, hold]
    cases old <;> cases append <;> rfl
  exact ⟨_, hwrite, hset _⟩

/-- Where no file can be written, writing one fails whatever the text. -/
theorem exists_writeText_error {w : World} {path : Text} (h : ¬ w.CanWrite path) :
    ∃ e, ∀ append t, w.writeText path append t = .error e := by
  by_cases hzero : Path.hasZero path = true
  · exact ⟨.zeroInPath, fun append t => by rw [writeText, if_pos hzero]⟩
  · cases hplace : w.writePlace path with
    | ok found => exact absurd ⟨by simpa using hzero, found, hplace⟩ h
    | error e =>
        refine ⟨.system e path, fun append t => ?_⟩
        rw [writeText, if_neg hzero]
        simp only [hplace]

end World

end CommandShell
