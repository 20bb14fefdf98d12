import CommandShell.Proofs.Frame
import CommandShell.Proofs.Rows

/-! # Lines that write nothing

In whatever way a line mixes calls, pipes and redirections, a row starts only with the operator
of a redirection or with an argument that is a name: a row is opened for such an argument and its
word is the next that is added. It goes to the last row of the tree, or there is no row for it and
nothing is run. -/

namespace CommandShell

namespace Draft

/-- The draft has a property if there is one. -/
def Ensures (p : Draft → Prop) (x : Except Draft Draft) : Prop := ∀ d, x = .ok d → p d

theorem ensures_ok {p : Draft → Prop} {d : Draft} (h : p d) : Ensures p (.ok d) := by
  intro d' hd
  cases hd
  exact h

theorem Ensures.bind {p q : Draft → Prop} {x : Except Draft Draft}
    {f : Draft → Except Draft Draft} (hx : Ensures p x) (hf : ∀ d, p d → Ensures q (f d)) :
    Ensures q (x >>= f) := by
  intro d hd
  cases x with
  | error d' => cases hd
  | ok d' => exact hf d' (hx d' rfl) d hd

/-- Every row has a first word that is allowed, and words go to the last row of the tree if there
is a row for them. -/
structure Started (allowed : Text → Prop) (d : Draft) : Prop where
  rows : ∀ row ∈ d.rows, ∃ t words, row = t :: words ∧ allowed t
  position : (d.tree.length : Int) ≤ d.position + 1

namespace Started

variable {allowed : Text → Prop} {d : Draft}

theorem empty : Draft.empty.Started allowed := ⟨by simp [Draft.empty], by simp [Draft.empty]⟩

theorem expectRow (h : d.Started allowed) : d.expectRow.Started allowed := ⟨h.rows, h.position⟩

theorem closePipe (h : d.Started allowed) (start : Nat) :
    (d.closePipe start).Started allowed := by
  refine ⟨h.rows, ?_⟩
  have hlength : (d.tree.take start).length ≤ d.tree.length := List.length_take_le' start d.tree
  have hposition := h.position
  change ((d.tree.take start).length : Int) ≤ d.position + 1
  omega

theorem closeSequence (h : d.Started allowed) : d.closeSequence.Started allowed := by
  obtain ⟨queue, hclosed⟩ := d.exists_closeSequence
  rw [hclosed]
  exact ⟨h.rows, h.position⟩

theorem openRow (h : d.Started allowed) {t : Text} (ht : allowed t) :
    (d.openRow [t]).Started allowed := by
  refine ⟨?_, ?_⟩
  · intro row hrow
    rcases List.mem_append.mp hrow with hrow | hrow
    · exact h.rows row hrow
    · exact ⟨t, [], List.mem_singleton.mp hrow, ht⟩
  · have hposition := h.position
    change ((d.tree ++ [d.rows.length]).length : Int) ≤ d.position + 1 + 1
    rw [List.length_append, List.length_singleton]
    omega

/-- A word goes to the end of a row. -/
theorem addWord? (h : d.Started allowed) {t : Text} {d' : Draft} (hd : d.addWord? t = some d') :
    d'.Started allowed := by
  obtain ⟨i, -, rfl⟩ := Option.map_eq_some_iff.mp hd
  refine ⟨?_, h.position⟩
  intro row hrow
  obtain ⟨j, hj⟩ := List.mem_iff_getElem?.mp hrow
  rw [List.getElem?_modify] at hj
  obtain ⟨r, hr, rfl⟩ := Option.map_eq_some_iff.mp hj
  obtain ⟨first, words, rfl, hfirst⟩ := h.rows r (List.mem_of_getElem? hr)
  by_cases hij : i = j
  · exact ⟨first, words ++ [t], by simp [hij], hfirst⟩
  · exact ⟨first, words, by simp [hij], hfirst⟩

/-- The first word of a new row. -/
theorem addFirst? (h : d.Started allowed) {t : Text} (ht : allowed t) {d' : Draft}
    (hd : (d.openRow []).addWord? t = some d') : d'.Started allowed := by
  have hposition := h.position
  have hlength : (d.openRow []).tree.length = d.tree.length + 1 := by simp [Draft.openRow]
  have hnew : (d.openRow []).position = d.position + 1 := rfl
  obtain ⟨i, hi, rfl⟩ := Option.map_eq_some_iff.mp hd
  have hrow : i = d.rows.length := by
    rw [currentRow?, if_pos (by omega)] at hi
    have hlt := (List.getElem?_eq_some_iff.mp hi).1
    have hlast : (d.openRow []).position.toNat = d.tree.length := by omega
    rw [hlast] at hi
    change (d.tree ++ [d.rows.length])[d.tree.length]? = some i at hi
    simpa using hi.symm
  have hrows : (d.openRow []).rows.modify i (· ++ [t]) = d.rows ++ [[t]] := by
    have hlast := modify_last t (d.rows ++ [[]])
    rw [List.length_append, List.length_singleton, Nat.add_sub_cancel,
      addToLast_append (by simp)] at hlast
    rw [hrow]
    exact hlast
  have hopened := h.openRow ht
  refine ⟨?_, hopened.position⟩
  rw [hrows]
  exact hopened.rows

theorem note_word (h : d.Started allowed) (t : Text) :
    Ensures (Draft.Started allowed) (d.note (.word t)) := by
  rw [note]
  cases hadd : d.addWord? t with
  | none =>
      intro d' hd
      cases hd
  | some d' => exact ensures_ok (h.addWord? hadd)

/-- An argument that is a name starts a row with its word, or its word goes to the row before. -/
theorem note_name (h : d.Started allowed) {t : Text} (ht : allowed t) :
    Ensures (Draft.Started allowed) (d.note (.argument t) >>= fun d' => d'.note (.word t)) := by
  change Ensures _ (Draft.note (if _ then d.openRow [] else d) (.word t))
  split
  · rw [note]
    cases hadd : (d.openRow []).addWord? t with
    | none =>
        intro d' hd
        cases hd
    | some d' => exact ensures_ok (h.addFirst? ht hadd)
  · exact h.note_word t

end Started

theorem ensures_follow {allowed : Text → Prop} {notes : List Note} (h : Orderly notes)
    (hr : ∀ s ∈ notes.filterMap Note.redirection?, s ∈ Tree.operators → allowed s)
    (hn : ∀ t ∈ Note.names notes, Application.isName t = true → allowed t) {d : Draft}
    (hd : d.Started allowed) :
    Ensures (Started allowed) (follow notes d) := by
  induction h generalizing d with
  | nil => exact ensures_ok hd
  | @redirection s notes hs _ ih =>
      have hallowed : allowed s := hr s (by simp [Note.redirection?]) hs
      have hr' : ∀ s ∈ notes.filterMap Note.redirection?, s ∈ Tree.operators → allowed s := by
        intro u hu
        exact hr u (by simp [Note.redirection?, hu])
      exact ih hr' hn (hd.expectRow.openRow hallowed)
  | word t _ ih =>
      exact (hd.note_word t).bind fun d' hd' => ih hr hn hd'
  | @argument t notes ht _ ih =>
      rw [Note.names_argument ht] at hn
      rw [follow, note, if_neg (by simp [ht])]
      exact ih hr hn hd
  | @name t notes ht _ ih =>
      rw [Note.names_name ht, Note.names_word] at hn
      have hallowed : allowed t := hn t (by simp) ht
      have hn' : ∀ t ∈ Note.names notes, Application.isName t = true → allowed t :=
        fun u hu => hn u (by simp [hu])
      have hsplit : follow (.argument t :: .word t :: notes) d =
          (d.note (.argument t) >>= fun d' => d'.note (.word t)) >>= follow notes := by
        simp only [follow, bind_assoc]
      rw [hsplit]
      exact (hd.note_name hallowed).bind fun d' hd' => ih hr hn' hd'

/-- A call of which every redirection and every argument that is a name is allowed to start a
row. -/
structure Allows (allowed : Text → Prop) (c : Tree) : Prop where
  redirections : ∀ r ∈ c.redirections, r.sign ∈ Tree.operators → allowed r.sign
  arguments : ∀ a ∈ c.arguments, Application.isName a.text = true → allowed a.text

theorem ensures_follow_call {allowed : Text → Prop} {c : Tree} (hc : c.IsCall) (hp : c.Plain)
    (ha : Allows allowed c) {d : Draft} (hd : d.Started allowed) :
    Ensures (Started allowed) (follow c.notes d) := by
  obtain ⟨kids, hkids, hnoted⟩ := hc.noted hp
  have hnotes : c.notes = .expected :: Tree.notesAll kids := by rw [hkids, Tree.notes_call]
  rw [hnotes]
  refine ensures_follow hnoted.orderly ?_ ?_ hd.expectRow
  · rw [hnoted.redirections]
    intro s hs
    obtain ⟨r, hr, rfl⟩ := List.mem_map.mp hs
    exact ha.redirections r hr
  · rw [Note.names, hnoted.arguments]
    intro t ht
    obtain ⟨a, har, rfl⟩ := List.mem_map.mp (List.mem_filter.mp ht).1
    exact ha.arguments a har

theorem ensures_follow_calls {allowed : Text → Prop} {cs : List Tree}
    (hc : ∀ c ∈ cs, c.IsCall ∧ c.Plain ∧ Allows allowed c) {d : Draft} (hd : d.Started allowed) :
    Ensures (Started allowed) (follow (cs.flatMap Tree.notes) d) := by
  induction cs generalizing d with
  | nil => exact ensures_ok hd
  | cons c cs ih =>
      obtain ⟨hcall, hplain, hallows⟩ := hc c (by simp)
      rw [List.flatMap_cons, follow_append]
      refine (ensures_follow_call hcall hplain hallows hd).bind ?_
      intro d' hd'
      exact ih (fun x hx => hc x (by simp [hx])) hd'

theorem ensures_follow_expected {allowed : Text → Prop} (n : Nat) {d : Draft}
    (hd : d.Started allowed) :
    Ensures (Started allowed) (follow (List.replicate n .expected) d) := by
  induction n generalizing d with
  | zero => exact ensures_ok hd
  | succ n ih => exact ih hd.expectRow

section Line

variable {allowed : Text → Prop} {t : Tree}

theorem ensures_item (ht : t.IsCommand) (hp : t.Plain) (ha : ∀ c ∈ t.calls, Allows allowed c)
    {x : Tree} (hx : x ∈ t.items) {d : Draft} (hd : d.Started allowed) :
    Ensures (Started allowed) (d.item x) := by
  obtain ⟨c, cs, hcalls, hnotes⟩ := ht.notes_of_mem hp hx
  have hall : ∀ y ∈ c :: cs, y.IsCall ∧ y.Plain ∧ Allows allowed y := by
    intro y hy
    have hmem : y ∈ t.calls := by
      rw [ht.calls_eq, List.mem_flatMap]
      exact ⟨x, hx, by rw [hcalls]; exact hy⟩
    obtain ⟨hcall, hplain⟩ := ht.isCall_of_mem hp hmem
    exact ⟨hcall, hplain, ha y hmem⟩
  have hfollow : ∀ d : Draft, d.Started allowed → Ensures (Started allowed) (follow x.notes d) := by
    intro d hd
    rw [hnotes, follow_append]
    refine (ensures_follow_expected cs.length hd).bind ?_
    intro d' hd'
    exact ensures_follow_calls hall hd'
  rw [item]
  split
  · refine (hfollow d.expectRow hd.expectRow).bind ?_
    intro d' hd'
    exact ensures_ok (hd'.closePipe _)
  · exact hfollow d hd

theorem ensures_join (ht : t.IsCommand) (hp : t.Plain) (ha : ∀ c ∈ t.calls, Allows allowed c)
    {xs : List Tree} (hx : xs ⊆ t.items) {d : Draft} (hd : d.Started allowed) :
    Ensures (Started allowed) (join xs d) := by
  induction xs generalizing d with
  | nil => exact ensures_ok hd
  | cons x xs ih =>
      obtain ⟨hhead, htail⟩ := List.cons_subset.mp hx
      refine (ensures_item ht hp ha hhead hd).bind ?_
      intro d' hd'
      exact ih htail hd'.closeSequence

/-- Every row of a line starts with the operator of one of its redirections or with one of its
arguments that is a name. -/
theorem ensures_ofItems (ht : t.IsCommand) (hp : t.Plain)
    (ha : ∀ c ∈ t.calls, Allows allowed c) :
    Ensures (Started allowed) (ofItems t.items Draft.empty) := by
  obtain ⟨x, xs, hitems⟩ := List.exists_cons_of_ne_nil ht.items_ne_nil
  rw [hitems, ofItems]
  refine (ensures_item ht hp ha (by simp [hitems]) Started.empty).bind ?_
  intro d hd
  have hxs : xs ⊆ t.items := by
    rw [hitems]
    exact List.subset_cons_self x xs
  exact ensures_join ht hp ha hxs hd

end Line

end Draft

theorem quietWord_of_isName {t : Text} (hn : Application.isName t = true) (h : t ∉ changerNames) :
    QuietWord t := by
  have hplain : ∀ a : Application, '*' ∉ a.name ∧ a.name ∉ outputOperators ∧
      '_' :: a.name ∉ outputOperators := by
    intro a
    cases a <;> decide
  obtain ⟨a, rfl | rfl⟩ := Application.isName_iff.mp hn
  · refine ⟨(hplain a).1, ?_⟩
    rw [loudWords, List.mem_append]
    exact not_or.mpr ⟨h, (hplain a).2.1⟩
  · refine ⟨by simpa using (hplain a).1, ?_⟩
    rw [loudWords, List.mem_append]
    exact not_or.mpr ⟨h, (hplain a).2.2⟩

theorem quietWord_of_operator {s : Text} (hs : s ∈ Tree.operators)
    (h : s ∉ outputOperators) : QuietWord s := by
  have hless : s = ['<'] := by
    simp only [Tree.operators, outputOperators, List.mem_cons, List.not_mem_nil, or_false] at hs h
    tauto
  rw [hless]
  exact ⟨by decide, by decide⟩

/-- A line without redirections of output and without the names of applications that change files
leaves all files and folders as they are, however it ends. -/
theorem kept_runLine {line : Text} (h : Clear line)
    (hr : ∀ r ∈ (treeOf line).redirections, r.sign ∉ outputOperators)
    (ha : ∀ a ∈ (treeOf line).arguments, a.text ∉ changerNames) (out : List Value) (w : World) :
    w.Kept (runLine line out w).2.1 := by
  have hstarted : Draft.Ensures (Draft.Started QuietWord)
      (Draft.ofItems (treeOf line).items Draft.empty) := by
    rcases h.tree_cases with hnil | ⟨htree, hplain⟩
    · rw [hnil]
      exact Draft.ensures_ok Draft.Started.empty
    · rw [Tree.redirections, htree.outermost_calls hplain (by decide) (by decide)] at hr
      rw [Tree.arguments, htree.outermost_calls hplain (by decide) (by decide)] at ha
      apply Draft.ensures_ofItems htree hplain
      intro c hc
      refine ⟨?_, ?_⟩
      · intro r hrc hs
        exact quietWord_of_operator hs (hr r (List.mem_flatMap.mpr ⟨c, hc, hrc⟩))
      · intro a hac hn
        exact quietWord_of_isName hn (ha a (List.mem_flatMap.mpr ⟨c, hc, hac⟩))
  rw [runLine, runWith, h.draftWith_eq]
  cases hdraft : Draft.ofItems (treeOf line).items Draft.empty with
  | error d => exact w.kept_refl
  | ok d =>
      have hd := hstarted d hdraft
      apply Script.kept_runFrom
      intro row hrow
      obtain ⟨texts, htexts, rfl⟩ := List.mem_map.mp hrow
      obtain ⟨t, words, rfl, ht⟩ := hd.rows texts htexts
      apply quietRow_textRow
      intro u hu
      cases hu
      exact ht

/-- A leading redirection, a quoted name and names after a pipe are no way around it. -/
theorem kept_runLine_quoted_name :
    Clear "< f cat 'rm' ; _ls d | wc ; cd d".toList ∧
      World.bare.Kept (runLine "< f cat 'rm' ; _ls d | wc ; cd d".toList [] World.bare).2.1 := by
  have hclear : Clear "< f cat 'rm' ; _ls d | wc ; cd d".toList :=
    ⟨by decide +kernel, by decide +kernel⟩
  exact ⟨hclear, kept_runLine hclear (by decide +kernel) (by decide +kernel) [] World.bare⟩

end CommandShell
