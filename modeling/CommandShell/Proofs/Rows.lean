import CommandShell.Proofs.Walking

/-! # Rows of a draft

Until a pipe is closed all rows of a draft are in its tree and words go to the last of them. Such
a draft is known by its rows and by how many more of them are expected; what calls add to it can
be said by collecting their notes in rows. -/

namespace CommandShell

theorem addToLast_ne_nil {rows : List (List Text)} (h : rows ≠ []) (t : Text) :
    addToLast t rows ≠ [] := by
  fun_cases addToLast t rows <;> simp_all

theorem length_addToLast (t : Text) (rows : List (List Text)) :
    (addToLast t rows).length = rows.length := by
  fun_induction addToLast t rows with
  | case1 => rfl
  | case2 row => rfl
  | case3 row next rest ih => simp [ih]

theorem addToLast_append {rows : List (List Text)} (h : rows ≠ []) (t : Text)
    (before : List (List Text)) : addToLast t (before ++ rows) = before ++ addToLast t rows := by
  induction before with
  | nil => rfl
  | cons row before ih =>
      obtain ⟨next, rest, hne⟩ := List.exists_cons_of_ne_nil
        (List.append_ne_nil_of_right_ne_nil before h)
      rw [List.cons_append, List.cons_append, ← ih, hne, addToLast]

theorem modify_last (t : Text) (rows : List (List Text)) :
    rows.modify (rows.length - 1) (· ++ [t]) = addToLast t rows := by
  fun_induction addToLast t rows with
  | case1 => rfl
  | case2 row => rfl
  | case3 row next rest ih =>
      rw [← ih]
      rfl

/-- Rows that are there before are left alone. -/
theorem gather_append_rows {rows : List (List Text)} (h : rows ≠ []) (before : List (List Text))
    (notes : List Note) : gather (before ++ rows) notes = before ++ gather rows notes := by
  induction notes generalizing rows with
  | nil => rfl
  | cons n notes ih =>
      cases n with
      | expected => exact ih h
      | argument t => exact ih h
      | redirection s =>
          rw [gather, gather, List.append_assoc]
          exact ih (by simp)
      | word t =>
          rw [gather, gather, addToLast_append h]
          exact ih (addToLast_ne_nil h t)

theorem length_gather (rows : List (List Text)) (notes : List Note) :
    (gather rows notes).length = rows.length + (notes.filterMap Note.redirection?).length := by
  induction notes generalizing rows with
  | nil => rfl
  | cons n notes ih =>
      cases n with
      | expected => exact ih rows
      | argument t => exact ih rows
      | redirection s =>
          have hone : (Note.redirection s :: notes).filterMap Note.redirection? =
              s :: notes.filterMap Note.redirection? := rfl
          rw [gather, ih, hone, List.length_append, List.length_singleton, List.length_cons]
          omega
      | word t =>
          rw [gather, ih, length_addToLast]
          rfl

/-- Collect words in rows while `spare` more rows are expected than there are: an argument that is
a name starts one of those. -/
def collect (spare : Nat) (rows : List (List Text)) : List Note → Nat × List (List Text)
  | [] => (spare, rows)
  | .expected :: notes => collect (spare + 1) rows notes
  | .redirection sign :: notes => collect spare (rows ++ [[sign]]) notes
  | .argument t :: notes =>
      if Application.isName t && spare ≠ 0 then collect (spare - 1) (rows ++ [[]]) notes
      else collect spare rows notes
  | .word t :: notes => collect spare (addToLast t rows) notes

theorem collect_append (spare : Nat) (rows : List (List Text)) (xs ys : List Note) :
    collect spare rows (xs ++ ys) =
      collect (collect spare rows xs).1 (collect spare rows xs).2 ys := by
  fun_induction collect spare rows xs with
  | case1 spare rows => rfl
  | case2 spare rows notes ih => exact ih
  | case3 spare rows sign notes ih => exact ih
  | case4 spare rows t notes h ih => rw [List.cons_append, collect, if_pos h, ih]
  | case5 spare rows t notes h ih => rw [List.cons_append, collect, if_neg h, ih]
  | case6 spare rows t notes ih => exact ih

theorem collect_ne_nil {rows : List (List Text)} (h : rows ≠ []) (spare : Nat)
    (notes : List Note) : (collect spare rows notes).2 ≠ [] := by
  fun_induction collect spare rows notes with
  | case1 spare rows => exact h
  | case2 spare rows notes ih => exact ih h
  | case3 spare rows sign notes ih => exact ih (by simp)
  | case4 spare rows t notes _ ih => exact ih (by simp)
  | case5 spare rows t notes _ ih => exact ih h
  | case6 spare rows t notes ih => exact ih (addToLast_ne_nil h t)

/-- Where no row is to spare, or no argument is a name, only redirections start rows. -/
theorem collect_eq_gather {spare : Nat} {notes : List Note} (h : Orderly notes)
    (hs : spare = 0 ∨ Note.names notes = [])
    (rows : List (List Text)) : collect spare rows notes = (spare, gather rows notes) := by
  induction h generalizing rows with
  | nil => rfl
  | redirection _ _ ih => exact ih hs _
  | word t _ ih => exact ih hs _
  | @argument t notes ht _ ih =>
      rw [Note.names_argument ht] at hs
      rw [collect, if_neg (by simp [ht])]
      exact ih hs _
  | @name t notes ht _ ih =>
      rcases hs with rfl | h
      · rw [collect, if_neg (by simp)]
        exact ih (Or.inl rfl) _
      · simp [Note.names_name ht] at h

namespace Draft

/-- A draft of which no pipe has been closed: all rows are in the tree. -/
def flat (rows : List (List Text)) (sequences : Nat) (queue : List Plan) : Draft :=
  ⟨rows, [], List.range rows.length, (rows.length : Int) - 1, sequences, queue⟩

variable {rows : List (List Text)} {sequences : Nat} {queue : List Plan}

theorem expectRow_flat : (flat rows sequences queue).expectRow = flat rows (sequences + 1) queue :=
  rfl

theorem openRow_flat (words : List Text) :
    (flat rows sequences queue).openRow words = flat (rows ++ [words]) sequences queue := by
  simp only [openRow, flat, List.length_append, List.length_singleton, List.range_succ]
  congr 1
  omega

theorem currentRow?_flat (h : rows ≠ []) :
    (flat rows sequences queue).currentRow? = some (rows.length - 1) := by
  have hpos := List.length_pos_of_ne_nil h
  have hnat : ((rows.length : Int) - 1).toNat = rows.length - 1 := by omega
  rw [currentRow?, if_pos (by simp only [flat]; omega)]
  simp only [flat, hnat]
  rw [List.getElem?_range (by omega)]

theorem addWord?_flat (h : rows ≠ []) (t : Text) :
    (flat rows sequences queue).addWord? t = some (flat (addToLast t rows) sequences queue) := by
  rw [addWord?, currentRow?_flat h]
  simp only [Option.map_some, flat, length_addToLast, modify_last]

/-- The words of the rows of a draft. -/
theorem words_range (d : Draft) (h : d.rows = rows) : d.words (List.range rows.length) = rows := by
  subst h
  apply List.ext_getElem?
  intro i
  rw [words, List.getElem?_map]
  by_cases hi : i < d.rows.length
  · rw [List.getElem?_range hi]
    simp [List.getElem?_eq_getElem hi]
  · rw [List.getElem?_eq_none (by simpa using hi), List.getElem?_eq_none (by simpa using hi)]
    rfl

theorem words_flat : (flat rows sequences queue).words (List.range rows.length) = rows :=
  words_range _ rfl

/-- One note in a draft with rows to spare. -/
theorem note_flat {spare : Nat} (h : rows ≠ []) (n : Note) :
    (flat rows (rows.length + spare) queue).note n =
      .ok (flat (collect spare rows [n]).2
        ((collect spare rows [n]).2.length + (collect spare rows [n]).1) queue) := by
  cases n with
  | expected =>
      rw [note, expectRow_flat]
      rfl
  | redirection s =>
      rw [note, expectRow_flat, openRow_flat]
      simp only [collect, List.length_append, List.length_singleton]
      congr 2
      omega
  | argument t =>
      have htree : (flat rows (rows.length + spare) queue).tree.length = rows.length := by
        simp [flat]
      rw [note, htree]
      by_cases hn : (Application.isName t && spare ≠ 0) = true
      · have hn' : (Application.isName t &&
            rows.length ≠ (flat rows (rows.length + spare) queue).sequences) = true := by
          simpa [flat] using hn
        rw [if_pos hn', openRow_flat, collect, if_pos hn]
        simp only [collect, List.length_append, List.length_singleton]
        have hspare : spare ≠ 0 := by simpa using (Bool.and_eq_true_iff.mp hn).2
        congr 2
        omega
      · have hn' : ¬ (Application.isName t &&
            rows.length ≠ (flat rows (rows.length + spare) queue).sequences) = true := by
          simpa [flat] using hn
        rw [if_neg hn', collect, if_neg hn]
        rfl
  | word t =>
      rw [note, addWord?_flat h]
      simp only [collect, length_addToLast]

theorem follow_flat {spare : Nat} (h : rows ≠ []) (notes : List Note) :
    follow notes (flat rows (rows.length + spare) queue) =
      .ok (flat (collect spare rows notes).2
        ((collect spare rows notes).2.length + (collect spare rows notes).1) queue) := by
  induction notes generalizing rows spare with
  | nil => rfl
  | cons n notes ih =>
      have hstep := collect_append spare rows [n] notes
      rw [List.singleton_append] at hstep
      rw [follow, note_flat h, hstep]
      exact ih (collect_ne_nil h spare [n])

/-- The name of a call opens a row. -/
theorem follow_name {name : Text} (hn : Application.isName name = true)
    (rows : List (List Text)) (spare : Nat) :
    follow [.expected, .argument name, .word name] (flat rows (rows.length + spare) queue) =
      .ok (flat (rows ++ [[name]]) ((rows ++ [[name]]).length + spare) queue) := by
  have htree : (flat rows (rows.length + spare + 1) queue).tree.length = rows.length := by
    simp [flat]
  have hopen : (Application.isName name && rows.length ≠
      (flat rows (rows.length + spare + 1) queue).sequences) = true := by
    have hne : rows.length ≠ rows.length + spare + 1 := by omega
    rw [Bool.and_eq_true_iff]
    exact ⟨hn, decide_eq_true hne⟩
  have hadd : addToLast name (rows ++ [[]]) = rows ++ [[name]] :=
    addToLast_append (by simp) name rows
  have hlength : rows.length + spare + 1 = (rows ++ [[name]]).length + spare := by
    rw [List.length_append, List.length_singleton]
    omega
  calc follow [.expected, .argument name, .word name] (flat rows (rows.length + spare) queue)
      = follow [.argument name, .word name] (flat rows (rows.length + spare + 1) queue) := rfl
    _ = follow [.word name] (flat (rows ++ [[]]) (rows.length + spare + 1) queue) := by
        rw [follow, note, htree, if_pos hopen, openRow_flat]
        rfl
    _ = .ok (flat (rows ++ [[name]]) ((rows ++ [[name]]).length + spare) queue) := by
        rw [follow, note, addWord?_flat (by simp), hadd, hlength]
        rfl

/-- A call that starts with a name opens a row for it. -/
theorem follow_named {c : Tree} {name : Text} {rest : List Note} (hc : c.Named name rest)
    (rows : List (List Text)) (spare : Nat) :
    follow c.notes (flat rows (rows.length + spare) queue) =
      follow rest (flat (rows ++ [[name]]) ((rows ++ [[name]]).length + spare) queue) := by
  have hnotes : c.notes = [.expected, .argument name, .word name] ++ rest := hc.notes
  rw [hnotes, follow_append, follow_name hc.isName]
  rfl

end Draft

namespace Tree

/-- The arguments after the first that are names. -/
def furtherNames (c : Tree) : List Text := (c.arguments.tail.map text).filter Application.isName

theorem Named.names_rest {c : Tree} {name : Text} {rest : List Note} (h : c.Named name rest) :
    Note.names rest = c.furtherNames := by
  rw [Note.names, h.rest.arguments, furtherNames]

theorem Named.rows_eq {c : Tree} {name : Text} {rest : List Note} (h : c.Named name rest) :
    c.rows = gather [[name]] rest := by
  rw [rows, h.notes]
  rfl

/-- What calls add to a draft if none of their further arguments can start a row. -/
theorem follow_calls {cs : List Tree} (hc : ∀ c ∈ cs, ∃ name rest, c.Named name rest)
    {spare : Nat} (hs : spare = 0 ∨ ∀ c ∈ cs, c.furtherNames = []) (rows : List (List Text))
    (queue : List Plan) :
    Draft.follow (cs.flatMap notes) (.flat rows (rows.length + spare) queue) =
      .ok (.flat (rows ++ cs.flatMap Tree.rows)
        ((rows ++ cs.flatMap Tree.rows).length + spare) queue) := by
  induction cs generalizing rows with
  | nil => simp [Draft.follow]
  | cons c cs ih =>
      obtain ⟨name, rest, hn⟩ := hc c (by simp)
      have hnames : spare = 0 ∨ Note.names rest = [] := by
        rw [hn.names_rest]
        exact hs.imp_right fun h => h c (by simp)
      have hcall : Draft.follow c.notes (.flat rows (rows.length + spare) queue) =
          .ok (.flat (rows ++ c.rows) ((rows ++ c.rows).length + spare) queue) := by
        rw [Draft.follow_named hn, Draft.follow_flat (by simp),
          collect_eq_gather hn.rest.orderly hnames, gather_append_rows (by simp), hn.rows_eq]
      rw [List.flatMap_cons, Draft.follow_append, hcall, List.flatMap_cons, ← List.append_assoc]
      exact ih (fun x hx => hc x (by simp [hx]))
        (hs.imp_right fun h x hx => h x (by simp [hx])) _

end Tree

end CommandShell
