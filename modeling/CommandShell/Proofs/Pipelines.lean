import CommandShell.Proofs.Sequences

/-! # Pipes

A pipe of `n` calls expects `2 * n` rows besides those of redirections: one for each call, one for
each of its nodes and one for the command. The `n` rows to spare go to further arguments that are
names of applications, and each of these starts a call of its own. -/

namespace CommandShell

/-- The first words of rows. -/
def heads (rows : List (List Text)) : List Text := rows.filterMap List.head?

/-- The names with which rows start. -/
def rowNames (rows : List (List Text)) : List Text := (heads rows).filter Application.isName

theorem heads_append (xs ys : List (List Text)) : heads (xs ++ ys) = heads xs ++ heads ys :=
  List.filterMap_append

theorem heads_addToLast {rows : List (List Text)} (h : [] ∉ rows) (t : Text) :
    heads (addToLast t rows) = heads rows := by
  fun_induction addToLast t rows with
  | case1 => rfl
  | case2 row =>
      cases row with
      | nil => simp at h
      | cons word words => rfl
  | case3 row next rest ih =>
      have hrest := ih fun hm => h (List.mem_cons_of_mem row hm)
      rw [heads, List.filterMap_cons, ← heads, hrest]
      rfl

theorem nil_notMem_addToLast {rows : List (List Text)} (h : [] ∉ rows) (t : Text) :
    [] ∉ addToLast t rows := by
  fun_induction addToLast t rows with
  | case1 => exact h
  | case2 row => simp
  | case3 row next rest ih =>
      intro hm
      rcases List.mem_cons.mp hm with hm | hm
      · exact h (by simp [hm])
      · exact ih (fun hr => h (List.mem_cons_of_mem row hr)) hm

theorem isName_of_mem_operators {s : Text} (h : s ∈ Tree.operators) :
    Application.isName s = false := by
  revert s
  decide

/-- What notes from inside a call add to rows: the first words of the new rows are operators and
the names for which there are rows to spare. -/
structure RowsAdded (spare : Nat) (rows : List (List Text)) (names : List Text)
    (result : Nat × List (List Text)) : Prop where
  filled : [] ∉ result.2
  heads : ∃ more, heads result.2 = heads rows ++ more ∧
    more.filter Application.isName = names.take spare
  spare : result.1 = spare - names.length

theorem Orderly.rowsAdded {notes : List Note} (h : Orderly notes) {rows : List (List Text)}
    (hr : [] ∉ rows) (spare : Nat) :
    RowsAdded spare rows (Note.names notes) (collect spare rows notes) := by
  induction h generalizing rows spare with
  | nil => exact ⟨hr, ⟨[], by simp [collect], by simp⟩, rfl⟩
  | @redirection s notes hs _ ih =>
      have hr' : [] ∉ rows ++ [[s]] := by simp [hr]
      obtain ⟨hfilled, ⟨more, hmore, hnames⟩, hspare⟩ := ih hr' spare
      refine ⟨hfilled, ⟨s :: more, ?_, ?_⟩, hspare⟩
      · rw [collect, hmore, heads_append, List.append_assoc]
        rfl
      · rw [List.filter_cons_of_neg (by simp [isName_of_mem_operators hs])]
        exact hnames
  | word t _ ih =>
      obtain ⟨hfilled, hheads, hspare⟩ := ih (nil_notMem_addToLast hr t) spare
      rw [heads_addToLast hr] at hheads
      exact ⟨hfilled, hheads, hspare⟩
  | @argument t notes ht _ ih =>
      rw [Note.names_argument ht, collect, if_neg (by simp [ht])]
      exact ih hr spare
  | @name t notes ht _ ih =>
      rw [Note.names_name ht, Note.names_word]
      cases spare with
      | zero =>
          obtain ⟨hfilled, hheads, hspare⟩ := ih (nil_notMem_addToLast hr t) 0
          rw [heads_addToLast hr] at hheads
          rw [collect, if_neg (by simp), collect]
          refine ⟨hfilled, ?_, ?_⟩
          · simpa using hheads
          · rw [hspare, List.length_cons]
            omega
      | succ spare =>
          have hadd : addToLast t (rows ++ [[]]) = rows ++ [[t]] :=
            addToLast_append (by simp) t rows
          have hr' : [] ∉ rows ++ [[t]] := by simp [hr]
          obtain ⟨hfilled, ⟨more, hmore, hmore'⟩, hspare⟩ := ih hr' spare
          rw [collect, if_pos (by simp [ht]), collect, hadd, Nat.add_sub_cancel]
          refine ⟨hfilled, ⟨t :: more, ?_, ?_⟩, ?_⟩
          · rw [hmore, heads_append, List.append_assoc]
            rfl
          · rw [List.filter_cons_of_pos ht, hmore', List.take_succ_cons]
          · rw [hspare, List.length_cons]
            omega

namespace Tree

/-- The text of the first argument of a call. -/
def applicationWord (c : Tree) : List Text := (c.arguments.take 1).map text

theorem Named.applicationWord_eq {c : Tree} {name : Text} {rest : List Note}
    (h : c.Named name rest) : c.applicationWord = [name] := by
  have hfirst := h.first
  rw [applicationWord]
  cases hargs : c.arguments with
  | nil => simp [hargs] at hfirst
  | cons a more => simpa [hargs] using hfirst

/-- The names that start rows while there are rows to spare: that of each call, and of the
further names as many as there are rows to spare. -/
def startNames : Nat → List Tree → List Text
  | _, [] => []
  | spare, c :: cs =>
      c.applicationWord ++ c.furtherNames.take spare ++
        startNames (spare - c.furtherNames.length) cs

theorem length_startNames {cs : List Tree} (hn : ∀ c ∈ cs, ∃ name rest, c.Named name rest)
    (spare : Nat) :
    (startNames spare cs).length = cs.length + min spare (cs.flatMap furtherNames).length := by
  induction cs generalizing spare with
  | nil => simp [startNames]
  | cons c cs ih =>
      obtain ⟨name, rest, h⟩ := hn c (by simp)
      have hrest := ih (fun x hx => hn x (by simp [hx])) (spare - c.furtherNames.length)
      simp only [startNames, List.length_append, hrest, h.applicationWord_eq, List.length_take,
        List.flatMap_cons, List.length_cons, List.length_nil]
      omega

theorem startNames_of_no_names {cs : List Tree} (h : ∀ c ∈ cs, c.furtherNames = [])
    (spare : Nat) : startNames spare cs = cs.flatMap applicationWord := by
  induction cs generalizing spare with
  | nil => rfl
  | cons c cs ih =>
      rw [startNames, h c (by simp), List.flatMap_cons, ih fun x hx => h x (by simp [hx])]
      simp

/-- The names that start rows are those of the calls just if no further argument is a name. -/
theorem startNames_eq_iff {cs : List Tree} (hn : ∀ c ∈ cs, ∃ name rest, c.Named name rest)
    {spare : Nat} (hs : spare ≠ 0) :
    startNames spare cs = cs.flatMap applicationWord ↔ ∀ c ∈ cs, c.furtherNames = [] := by
  constructor
  · intro heq c hc
    have hwords : (cs.flatMap applicationWord).length = cs.length := by
      rw [List.length_flatMap]
      have hone : ∀ c ∈ cs, c.applicationWord.length = 1 := by
        intro x hx
        obtain ⟨name, rest, h⟩ := hn x hx
        rw [h.applicationWord_eq]
        rfl
      rw [List.map_congr_left hone]
      simp
    have hcount := length_startNames hn spare
    rw [heq, hwords] at hcount
    have hnil : (cs.flatMap furtherNames).length = 0 := by omega
    rw [List.length_eq_zero_iff, List.flatMap_eq_nil_iff] at hnil
    exact hnil c hc
  · intro h
    exact startNames_of_no_names h spare

/-- The rows of calls while there are rows to spare. -/
theorem follow_calls_spare {cs : List Tree} (hn : ∀ c ∈ cs, ∃ name rest, c.Named name rest)
    (spare : Nat) {rows : List (List Text)} (hr : [] ∉ rows) (queue : List Plan) :
    ∃ result : Nat × List (List Text),
      Draft.follow (cs.flatMap notes) (.flat rows (rows.length + spare) queue) =
          .ok (.flat result.2 (result.2.length + result.1) queue) ∧
        [] ∉ result.2 ∧
        ∃ more, heads result.2 = heads rows ++ more ∧
          more.filter Application.isName = startNames spare cs ∧
          ∀ c ∈ cs.head?, more.head? = c.applicationWord.head? := by
  induction cs generalizing rows spare with
  | nil => exact ⟨(spare, rows), rfl, hr, [], by simp, rfl, by simp⟩
  | cons c cs ih =>
      obtain ⟨name, rest, h⟩ := hn c (by simp)
      have hr' : [] ∉ rows ++ [[name]] := by simp [hr]
      obtain ⟨hfilled, ⟨inner, hinner, hnames⟩, hspare⟩ := h.rest.orderly.rowsAdded hr' spare
      rw [h.names_rest] at hnames hspare
      obtain ⟨result, hfollow, hres, more, hmore, hstart, -⟩ :=
        ih (fun x hx => hn x (by simp [hx])) (spare - c.furtherNames.length) hfilled
      refine ⟨result, ?_, hres, name :: inner ++ more, ?_, ?_, ?_⟩
      · rw [List.flatMap_cons, Draft.follow_append, Draft.follow_named h,
          Draft.follow_flat (by simp), hspare]
        exact hfollow
      · rw [hmore, hinner, heads_append]
        simp [heads]
      · rw [startNames, List.filter_append, List.filter_cons_of_pos h.isName, hnames, hstart,
          h.applicationWord_eq]
        rfl
      · intro x hx
        cases hx
        rw [h.applicationWord_eq]
        rfl

end Tree

/-- Rows of texts as the rows of a command. -/
def textRows (rows : List (List Text)) : List Row := rows.map (fun row => row.map .text)

namespace Command

/-- Every row that starts with a name starts a call. -/
theorem decodeAfter_rowNames {rows : List (List Text)} (h : [] ∉ rows) (current : List Row) :
    (decodeAfter current (textRows rows)).left = none ∧
      (decodeAfter current (textRows rows)).calls.length = 1 + (rowNames rows).length := by
  induction rows generalizing current with
  | nil => exact ⟨rfl, rfl⟩
  | cons row rows ih =>
      have hrows : [] ∉ rows := fun hm => h (List.mem_cons_of_mem row hm)
      cases row with
      | nil => exact absurd List.mem_cons_self h
      | cons word words =>
          have hrow : textRows ((word :: words) :: rows) =
              (.text word :: words.map .text) :: textRows rows := rfl
          have hnames : rowNames ((word :: words) :: rows) =
              if Application.isName word then word :: rowNames rows else rowNames rows := by
            simp [rowNames, heads, List.filter_cons]
          rw [hrow, decodeAfter, namesApplication, hnames]
          by_cases hw : Application.isName word = true
          · obtain ⟨hleft, hcalls⟩ := ih hrows [.text word :: words.map .text]
            rw [if_pos hw, if_pos hw]
            refine ⟨hleft, ?_⟩
            rw [List.length_cons, hcalls, List.length_cons]
            omega
          · rw [if_neg hw, if_neg hw]
            exact ih hrows _

theorem decode_rowNames {rows : List (List Text)} (h : [] ∉ rows) {word : Text}
    (hw : (heads rows).head? = some word) (hn : Application.isName word = true) :
    (decode (textRows rows)).left = none ∧
      (decode (textRows rows)).calls.length = (rowNames rows).length := by
  cases rows with
  | nil => simp [heads] at hw
  | cons row rows =>
      have hrows : [] ∉ rows := fun hm => h (List.mem_cons_of_mem row hm)
      cases row with
      | nil => exact absurd List.mem_cons_self h
      | cons first words =>
          obtain ⟨hleft, hcalls⟩ := decodeAfter_rowNames hrows [.text first :: words.map .text]
          have hfirst : first = word := by simpa [heads] using hw
          have hnames : rowNames ((first :: words) :: rows) = first :: rowNames rows := by
            simp [rowNames, heads, hfirst, hn]
          refine ⟨hleft, ?_⟩
          change (decodeAfter [.text first :: words.map .text] (textRows rows)).calls.length = _
          rw [hcalls, hnames, List.length_cons]
          omega

end Command

namespace Draft

theorem follow_expected (n : Nat) (rows : List (List Text)) (sequences : Nat)
    (queue : List Plan) :
    follow (List.replicate n .expected) (flat rows sequences queue) =
      .ok (flat rows (sequences + n) queue) := by
  induction n generalizing sequences with
  | zero => rfl
  | succ n ih =>
      rw [List.replicate_succ]
      change follow (List.replicate n .expected) (flat rows (sequences + 1) queue) = _
      rw [ih]
      congr 2
      omega

/-- A pipe expects a row for itself and one for each of its nodes before its calls. -/
theorem item_pipe {p : Tree} {cs : List Tree} (hr : p.rule? = some .pipe) (hp : p.Piped cs)
    (rows : List (List Text)) (queue : List Plan) :
    (flat rows rows.length queue).item p =
      (follow (cs.flatMap Tree.notes) (flat rows (rows.length + cs.length) queue)).map
        (·.closePipe rows.length) := by
  have hcount : rows.length + 1 + (cs.length - 1) = rows.length + cs.length := by
    have hseveral := hp.several
    omega
  have hstart : (flat rows rows.length queue).tree.length = rows.length := by simp [flat]
  rw [item, if_pos hr, hp.notes, follow_append, expectRow_flat, follow_expected, hcount, hstart]
  change (follow (cs.flatMap Tree.notes) (flat rows (rows.length + cs.length) queue) >>= _) = _
  cases follow (cs.flatMap Tree.notes) (flat rows (rows.length + cs.length) queue) with
  | ok d => rfl
  | error d => rfl

theorem resolve_closePipe (rows : List (List Text)) (sequences : Nat) :
    ((flat rows sequences []).closePipe 0).resolve ((flat rows sequences []).closePipe 0).queued =
      [(.pipe, rows)] := by
  change [(Form.pipe, (flat rows sequences []).words (List.range rows.length))] = _
  rw [words_flat]

end Draft

/-- A line that is one pipe comes to one pipe. Each of its calls starts a call there, and so do as
many further names as the line has calls; the calls are those of the line just if no further
argument is a name. -/
theorem pipe_drafted {line : Text} (h : Clear line)
    (hp : (treeOf line).items.map Tree.rule? = [some .pipe])
    (hn : ∀ c ∈ (treeOf line).calls, c.startsWithName = true) (w : World) :
    ∃ rows, (draftLine line w).resolved = .ok [(.pipe, rows)] ∧
      rowNames rows = Tree.startNames (treeOf line).calls.length (treeOf line).calls ∧
      (Command.decode (textRows rows)).left = none ∧
      (Command.decode (textRows rows)).calls.length =
        (treeOf line).calls.length +
          min (treeOf line).calls.length ((treeOf line).calls.flatMap Tree.furtherNames).length ∧
      (rowNames rows = (treeOf line).calls.flatMap Tree.applicationWord ↔
        ∀ c ∈ (treeOf line).calls, c.furtherNames = []) := by
  have hne : (treeOf line).items ≠ [] := by
    intro hnil
    simp [hnil] at hp
  obtain ⟨htree, hplain⟩ := h.isCommand hne
  have hnamed := htree.exists_named hplain hn
  obtain ⟨p, hitems, hrule⟩ := List.map_eq_singleton_iff.mp hp
  obtain ⟨cs, hpiped⟩ := htree.exists_piped hplain (by simp [hitems]) hrule
  have hcalls : (treeOf line).calls = cs := by
    rw [htree.calls_eq, hitems, List.flatMap_singleton, hpiped.calls]
  rw [hcalls] at hnamed ⊢
  have hseveral := hpiped.several
  obtain ⟨result, hfollow, hfilled, more, hheads, hnames, hfirst⟩ :=
    Tree.follow_calls_spare hnamed cs.length (List.not_mem_nil (a := [])) []
  have hmore : heads result.2 = more := hheads
  have hrowNames : rowNames result.2 = Tree.startNames cs.length cs := by
    rw [rowNames, hmore, hnames]
  have hdecode : (Command.decode (textRows result.2)).left = none ∧
      (Command.decode (textRows result.2)).calls.length = (rowNames result.2).length := by
    obtain ⟨c, hc⟩ : ∃ c, cs.head? = some c := by
      apply Option.isSome_iff_exists.mp
      rw [List.isSome_head?]
      simp [List.ne_nil_of_length_pos (by omega : 0 < cs.length)]
    obtain ⟨name, rest, hname⟩ := hnamed c (List.mem_of_mem_head? hc)
    have hword : (heads result.2).head? = some name := by
      rw [hmore, hfirst c hc, hname.applicationWord_eq]
      rfl
    exact Command.decode_rowNames hfilled hword hname.isName
  refine ⟨result.2, ?_, hrowNames, hdecode.1, ?_, ?_⟩
  · have hdraft : Draft.ofItems (treeOf line).items Draft.empty =
        .ok ((Draft.flat result.2 (result.2.length + result.1) []).closePipe 0) := by
      rw [hitems, Draft.ofItems_singleton]
      refine (Draft.item_pipe hrule hpiped [] []).trans ?_
      rw [hfollow]
      rfl
    rw [draftLine, h.draftWith_eq, hdraft, drafted, Drafted.resolved, htree.commands_eq,
      if_neg (by simp [hp]), Except.map, Draft.resolve_closePipe]
  · rw [hdecode.2, hrowNames, Tree.length_startNames hnamed]
  · rw [hrowNames]
    exact Tree.startNames_eq_iff hnamed (by omega)

/-- With two calls two further names start calls, and the third one does not. -/
theorem pipe_drafted_names_inside :
    Clear "echo cat sort | grep wc".toList ∧
      ∃ rows, (draftLine "echo cat sort | grep wc".toList World.bare).resolved =
          .ok [(.pipe, rows)] ∧
        rowNames rows = ["echo".toList, "cat".toList, "sort".toList, "grep".toList] ∧
        (Command.decode (textRows rows)).calls.length = 4 := by
  have hclear : Clear "echo cat sort | grep wc".toList := ⟨by decide +kernel, by decide +kernel⟩
  obtain ⟨rows, hresolved, hnames, -, hcalls, -⟩ :=
    pipe_drafted hclear (by decide +kernel) (by decide +kernel) World.bare
  refine ⟨hclear, rows, hresolved, hnames.trans ?_, hcalls.trans ?_⟩
  · decide +kernel
  · decide +kernel

end CommandShell
