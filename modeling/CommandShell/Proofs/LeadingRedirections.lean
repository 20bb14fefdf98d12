import CommandShell.Proofs.ArgumentTexts
import CommandShell.Proofs.SeveralRedirections
import CommandShell.Proofs.Unsupported

/-! # Redirections before the name

A redirection can be written before the name of the application. If it is the only one, reads a file
and names it by a word that is no name of an application, the line does what it does with the
redirection at its end. Every other line that starts with a redirection fails, whatever it says
behind that. -/

namespace CommandShell

open Parse Grammar Spelling CommandShell.Tree Drafting

/-! ### Calls with an operator in their first row -/

namespace Command

section Operators

variable {o : Operator} {words : List Value} {more : List Row} {w : World}

theorem has_operator (o : Operator) : (Value.text o.text).has '*' = false := by
  cases o <;> decide

theorem exists_application_error (o : Operator) :
    ∃ e, application (.text o.text) = .error e := by
  cases o with
  | input => exact ⟨_, rfl⟩
  | output => exact ⟨_, rfl⟩
  | appending => exact ⟨_, rfl⟩

/-- An operator is no application. -/
theorem exists_afterIntake_error (o : Operator) (words : List Value) (more : List Row)
    (input out : List Value) (w : World) :
    ∃ e, afterIntake ((.text o.text :: words) :: more) input out w = (out, w, some e) := by
  obtain ⟨e, he⟩ := exists_application_error o
  simp only [afterIntake, expandRows, expandRow_cons (has_operator o), List.headD_cons]
  cases (expandRow w words).2 with
  | some e' => exact ⟨e', rfl⟩
  | none => exact ⟨e, by simp [runRow, he, Effect.failed]⟩

/-- A call that starts with a redirection of output fails. -/
theorem exists_running_of_output (h : o ≠ .input) (words : List Value) (more : List Row)
    (input out : List Value) (w : World) :
    ∃ e, (call ((.text o.text :: words) :: more) input out w).running = (out, w, some e) := by
  have htake := takeInput_cons (isText_of_ne h) words more w
  cases hf : (takeInput w more []).fault with
  | some e => exact ⟨e, running_call_of_fault (by rw [htake, hf]) input out⟩
  | none =>
      rw [running_call (by rw [htake, hf]), htake, remaining_cons]
      exact exists_afterIntake_error o words _ _ out w

/-- Behind a file that is read no other row is taken. -/
theorem taken_of_taken {rows : List Row} {i j : Nat} {input : List Value}
    (h : (takeInputFrom w i (some j) input rows).fault = none) :
    (takeInputFrom w i (some j) input rows).taken = some j := by
  generalize hj : some j = taken at h ⊢
  fun_induction takeInputFrom w i taken input rows with
  | case1 => rfl
  | case2 => cases h
  | case3 => cases h
  | case4 => cases hj
  | case5 => cases h
  | case6 i taken input word words rest hword ih => exact ih hj h

theorem takeInput_of_fault {files : List Value} {e : Fault} (he : inputFault w false files = some e)
    (rows : List Row) : takeInput w ((.text ['<'] :: files) :: rows) [] = ⟨[], none, some e⟩ := by
  have hnone : inputFault w (none : Option Nat).isSome files = some e := he
  exact takeInputFrom_of_fault hnone rows 0 []

/-- So does one that reads a file first and then redirects its output. -/
theorem exists_running_of_input_output (o : Operator) (files words : List Value)
    (more : List Row) (input out : List Value) (w : World) :
    ∃ e, (call ((.text ['<'] :: files) :: (.text o.text :: words) :: more) input out w).running =
      (out, w, some e) := by
  cases he : inputFault w false files with
  | some e =>
      exact ⟨e, running_call_of_fault (congrArg Intake.fault (takeInput_of_fault he _)) input out⟩
  | none =>
      obtain ⟨-, file, lines, rfl, ho⟩ := exists_of_inputFault he
      have htake := takeInputFrom_of_open ho ((.text o.text :: words) :: more) 0 []
      rw [← takeInput] at htake
      cases hf : (takeInput w ([.text ['<'], file] :: (.text o.text :: words) :: more) []).fault with
      | some e => exact ⟨e, running_call_of_fault hf input out⟩
      | none =>
          have htaken := hf
          rw [htake] at htaken
          rw [running_call hf, htake, taken_of_taken htaken]
          exact exists_afterIntake_error o words more _ out w

/-- And one that names no file to read. -/
theorem running_of_no_file (more : List Row) (input out : List Value) (w : World) :
    (call ([.text ['<']] :: more) input out w).running = (out, w, some .severalInputs) :=
  running_call_of_fault rfl input out

/-- It makes no difference on which side of the application the only redirection of input stands. -/
theorem running_input_first {word : Value} (h : word.isText ['<'] = false)
    (words files input out : List Value) (w : World) :
    (call [.text ['<'] :: files, word :: words] input out w).running =
      (call [word :: words, .text ['<'] :: files] input out w).running := by
  have hlast := takeInput_cons h words [.text ['<'] :: files] w
  have hreads : ReadsNothing [word :: words] := by
    intro row hrow
    exact ⟨word, words, List.mem_singleton.mp hrow, h⟩
  cases he : inputFault w false files with
  | some e =>
      rw [running_call_of_fault (congrArg Intake.fault (takeInput_of_fault he _)),
        running_call_of_fault (by rw [hlast, takeInput_of_fault he])]
  | none =>
      obtain ⟨-, file, lines, rfl, ho⟩ := exists_of_inputFault he
      have hfirst : takeInput w [[.text ['<'], file], word :: words] [] =
          ⟨[.list lines], some 0, none⟩ :=
        (takeInputFrom_of_open ho _ 0 []).trans (takeInputFrom_of_readsNothing hreads w 1 _ _)
      have hopen : takeInput w [[.text ['<'], file]] [] = ⟨[.list lines], some 0, none⟩ :=
        takeInputFrom_of_open ho [] 0 []
      rw [hopen] at hlast
      rw [running_call (congrArg Intake.fault hfirst), running_call (congrArg Intake.fault hlast),
        hfirst, hlast, linesRead_cons_of_open (isText_self _) ho, linesRead_cons_of_not h,
        linesRead_cons_of_not h, linesRead_cons_of_open (isText_self _) ho]
      rfl

end Operators

end Command

/-! ### Rows of a line that starts with a redirection -/

section Rows

theorem gather_append (rows : List (List Text)) (xs ys : List Note) :
    gather rows (xs ++ ys) = gather (gather rows xs) ys := by
  induction xs generalizing rows with
  | nil => rfl
  | cons n xs ih =>
      cases n with
      | expected => exact ih rows
      | argument t => exact ih rows
      | redirection s => exact ih (rows ++ [[s]])
      | word t => exact ih (addToLast t rows)

/-- Rows behind the first leave it alone. -/
theorem collect_cons (spare : Nat) (row : List Text) {rows : List (List Text)} (h : rows ≠ [])
    (notes : List Note) :
    (collect spare (row :: rows) notes).2 = row :: (collect spare rows notes).2 := by
  induction notes generalizing spare rows with
  | nil => rfl
  | cons n notes ih =>
      cases n with
      | expected => exact ih (spare + 1) h
      | redirection s => exact ih spare (by simp)
      | argument t =>
          rw [collect, collect]
          split
          · exact ih (spare - 1) (by simp)
          · exact ih spare h
      | word t =>
          obtain ⟨next, rest, rfl⟩ := List.exists_cons_of_ne_nil h
          exact ih spare (addToLast_ne_nil h t)

/-- A target that is a name opens the row that is meant for the application. -/
theorem collect_name {t : Text} (ht : Application.isName t = true) (s : Text) (notes : List Note) :
    (collect 1 [[s]] (.argument t :: notes)).2 = [s] :: (collect 0 [[]] notes).2 := by
  rw [collect, if_pos (by simp [ht])]
  exact collect_cons 0 [s] (by simp) notes

theorem exists_collect_two {t : Text} (ht : Application.isName t = false) (s s' : Text)
    (ws : List Text) (notes : List Note) :
    ∃ row rows, (collect 1 [[s]] (.argument t :: (ws.map .word ++ .redirection s' :: notes))).2 =
      (s :: ws) :: (s' :: row) :: rows := by
  obtain ⟨row, rows, hrows⟩ := collect_extends 1 [] [s'] notes
  refine ⟨row, rows, ?_⟩
  rw [collect, if_neg (by simp [ht]), ← List.nil_append [[s]], collect_words]
  exact (collect_cons 1 (s :: ws) (by simp) notes).trans (congrArg _ hrows)

end Rows

/-! ### Drafts of a line that is one call -/

section Drafts

variable {run : Text → List Value → World → Running} {line : Text} {c : Span}

/-- The only call of a line is walked by carrying out its deeds. -/
theorem Parse.Consists.exists_walk (h : Consists line c [] [])
    (run : Text → List Value → World → Running) :
    ∃ x, treeOf line = .node .command [x] ∧ x.rule? = some .call ∧
      walk run x = carryOutAll run (Tree.deeds (.node .call c.2)) := by
  obtain ⟨x, hline, hx, hcall⟩ := h.exists_isCall
  have hscanned := scanned_of_read h.read_eq.1
  rw [hline] at hscanned
  refine ⟨x, hline, hcall.rule?_eq, ?_⟩
  rw [hcall.walk_deeds (hscanned.kid (List.mem_singleton_self x)), ← hx, deeds_unplaced]

/-- What is drafted for a line that starts with a redirection. -/
def redirectedDraft (s : Text) (notes : List Note) : Draft :=
  .flat (collect 1 [[s]] notes).2 ((collect 1 [[s]] notes).2.length + (collect 1 [[s]] notes).1) []

variable {s : Text} {rest : List Deed}

theorem onto_walk_redirection (h : Consists line c [] [])
    (hd : Tree.deeds (.node .call c.2) = [.expected, .redirection s].map .note ++ rest) :
    onto (walk run (treeOf line)) Draft.empty = redirectedDraft s <$> rest.mapM (settle run) := by
  obtain ⟨x, hline, hrule, hwalk⟩ := h.exists_walk run
  have hnode : walk run (.node .command [x]) = walk run x := by
    simp [walk_command, hrule]
  have hopen : Draft.follow [.expected, .redirection s] Draft.empty =
      .ok (.flat [[s]] ([[s]].length + 1) []) := rfl
  rw [hline, hnode, hwalk, hd, carryOutAll_append, onto_bind, carryOutAll_notes,
    onto_perform hopen, pure_bind, onto_carryOutAll (by simp), map_eq_pure_bind]
  rfl

theorem draftWith_of_notes (h : Consists line c [] [])
    (hd : Tree.deeds (.node .call c.2) = [.expected, .redirection s].map .note ++ rest)
    {notes : List Note} {w w' : World} (hn : rest.mapM (settle run) w = .ok notes w') :
    draftWith run line w =
      ⟨redirectedDraft s notes, .ok [(.call, List.range (collect 1 [[s]] notes).2.length)], w'⟩ := by
  obtain ⟨x, hline, hrule, -⟩ := h.exists_walk run
  have honto : onto (walk run (treeOf line)) Draft.empty w = .ok (redirectedDraft s notes) w' := by
    rw [onto_walk_redirection h hd, map_eq_pure_bind, bind_eq_of_ok hn]
    rfl
  have hwarn : w.warn ((Parse.read .command line).complaints.flatMap Complaint.report) = w := by
    simp [h.read_eq.1, World.warn]
  have hcommands : Drafting.commands (treeOf line) (redirectedDraft s notes) =
      [(.call, List.range (collect 1 [[s]] notes).2.length)] := by
    simp [hline, Drafting.commands, kids, hrule, Draft.single, redirectedDraft, Draft.flat]
  rw [draftWith, hwarn, ← treeOf, eq_of_onto_ok honto, ← hcommands]

theorem exists_draftWith_of_error (h : Consists line c [] [])
    (hd : Tree.deeds (.node .call c.2) = [.expected, .redirection s].map .note ++ rest)
    {e : Fault} {w w' : World} (hn : rest.mapM (settle run) w = .error e w') :
    ∃ d, draftWith run line w = ⟨d, .error e, w'⟩ := by
  have honto : onto (walk run (treeOf line)) Draft.empty w = .error e w' := by
    rw [onto_walk_redirection h hd, map_eq_pure_bind, bind_eq_of_error hn]
  have hwarn : w.warn ((Parse.read .command line).complaints.flatMap Complaint.report) = w := by
    simp [h.read_eq.1, World.warn]
  obtain ⟨d, hwalk⟩ := exists_of_onto_error honto
  exact ⟨d, by rw [draftWith, hwarn, ← treeOf, hwalk]⟩

/-- A line that starts with a redirection is run in two stages, as one that starts with a name. -/
theorem runWith_redirection (h : Consists line c [] [])
    (hd : Tree.deeds (.node .call c.2) = [.expected, .redirection s].map .note ++ rest)
    (out : List Value) (w : World) :
    runWith run line out w =
      runMade out (((fun notes => [(collect 1 [[s]] notes).2]) <$> rest.mapM (settle run)) w) := by
  rw [runWith, map_eq_pure_bind]
  cases hn : rest.mapM (settle run) w with
  | ok notes w' =>
      rw [draftWith_of_notes h hd hn, bind_eq_of_ok hn]
      exact (Draft.run_script_flat _ _ _ _ out w').trans (congrArg _ (runBlocks_call _ w'))
  | error e w' =>
      obtain ⟨d, hdraft⟩ := exists_draftWith_of_error h hd hn
      rw [hdraft, bind_eq_of_error hn]
      rfl

end Drafts

/-! ### Words of arguments -/

section Words

variable {run : Text → List Value → World → Running} {w w' : World} {notes : List Note}

/-- What is done for arguments. -/
def deedsOfAll (ts : List Text) : List Deed := ts.flatMap fun t => argumentDeeds (t, partsOf t)

/-- The parts of an argument come to words. -/
theorem exists_words_of_mapM {ds : List Deed} (h : ∀ d ∈ ds, d.MakesWord)
    (hm : ds.mapM (settle run) w = .ok notes w') : ∃ ws : List Text, notes = ws.map .word := by
  have hnotes := forall₂_of_mapM hm
  clear hm
  induction hnotes with
  | nil => exact ⟨[], rfl⟩
  | @cons d n ds notes hn _ ih =>
      obtain ⟨ws, rfl⟩ := ih fun x hx => h x (by simp [hx])
      obtain ⟨v, v', hn⟩ := hn
      have hd := h d (by simp)
      cases d with
      | note m =>
          cases hn
          cases n with
          | word t => exact ⟨t :: ws, rfl⟩
          | expected => exact hd.elim
          | redirection s => exact hd.elim
          | argument t => exact hd.elim
      | substitute t =>
          rw [settle, map_eq_pure_bind] at hn
          obtain ⟨word, v₁, -, hword⟩ := exists_of_bind_eq_ok hn
          cases hword
          exact ⟨word :: ws, rfl⟩

theorem exists_of_mapM_append {ds es : List Deed} (h : (ds ++ es).mapM (settle run) w = .ok notes w') :
    ∃ ms ns v, ds.mapM (settle run) w = .ok ms v ∧ es.mapM (settle run) v = .ok ns w' ∧
      notes = ms ++ ns := by
  rw [List.mapM_append] at h
  obtain ⟨ms, v, hms, h⟩ := exists_of_bind_eq_ok h
  obtain ⟨ns, v', hns, h⟩ := exists_of_bind_eq_ok h
  cases h
  exact ⟨ms, ns, v, hms, hns, rfl⟩

theorem exists_of_mapM_note {n : Note} {ds : List Deed}
    (h : (.note n :: ds).mapM (settle run) w = .ok notes w') :
    ∃ ns, ds.mapM (settle run) w = .ok ns w' ∧ notes = n :: ns := by
  rw [List.mapM_cons, settle, pure_bind] at h
  obtain ⟨ns, v, hns, h⟩ := exists_of_bind_eq_ok h
  cases h
  exact ⟨ns, hns, rfl⟩

theorem exists_argument_notes {t : Text} (ht : IsArgumentText t)
    (h : (argumentDeeds (t, partsOf t)).mapM (settle run) w = .ok notes w') :
    ∃ ws : List Text, notes = wordNotes (t, ws) := by
  obtain ⟨ns, hns, rfl⟩ := exists_of_mapM_note h
  obtain ⟨ws, rfl⟩ := exists_words_of_mapM ht.makesWord hns
  exact ⟨ws, rfl⟩

theorem exists_arguments_notes {ts : List Text} (ht : ∀ t ∈ ts, IsArgumentText t)
    (h : (deedsOfAll ts).mapM (settle run) w = .ok notes w') :
    ∃ xs : List (Text × List Text), notes = xs.flatMap wordNotes := by
  induction ts generalizing w notes with
  | nil =>
      cases h
      exact ⟨[], rfl⟩
  | cons t ts ih =>
      rw [deedsOfAll, List.flatMap_cons] at h
      obtain ⟨ms, ns, v, hms, hns, rfl⟩ := exists_of_mapM_append h
      obtain ⟨ws, rfl⟩ := exists_argument_notes (ht t (by simp)) hms
      obtain ⟨xs, rfl⟩ := ih (fun u hu => ht u (by simp [hu])) hns
      exact ⟨(t, ws) :: xs, rfl⟩

theorem map_congr_at {α β : Type} {x y : EStateM Fault World α} (h : x w = y w) (f : α → β) :
    (f <$> x) w = (f <$> y) w := by
  simp only [Functor.map, EStateM.map, h]

end Words

/-! ### The two lines -/

/-- A call with arguments, and with redirections of which at most one is of input. -/
structure RedirectedCall where
  name : Text
  arguments : List Text
  redirections : List WrittenRedirection
  isName : Application.isName name = true
  areArguments : ∀ t ∈ arguments, IsArgumentText t
  inputs : (redirections.filter fun r => r.operator = .input).length ≤ 1

namespace RedirectedCall

variable (c : RedirectedCall)

/-- The line with the redirections before the name. -/
def leading : Text :=
  preceding (c.redirections.map WrittenRedirection.text) ++ (c.name ++ following c.arguments)

/-- The line with the redirections behind the last argument. -/
def trailing : Text :=
  c.name ++ following (c.arguments ++ c.redirections.map WrittenRedirection.text)

def redirectionDeeds : List Deed := c.redirections.flatMap WrittenRedirection.deeds

/-- The words of the redirections and those of the arguments can be made in either order. -/
def Commutes (w : World) : Prop :=
  (do
    let rs ← c.redirectionDeeds.mapM (settle runPlain)
    let xs ← (deedsOfAll c.arguments).mapM (settle runPlain)
    pure (xs, rs)) w =
  (do
    let xs ← (deedsOfAll c.arguments).mapM (settle runPlain)
    let rs ← c.redirectionDeeds.mapM (settle runPlain)
    pure (xs, rs)) w

/-- There is nothing but a redirection of input, to a file that is not written like the name of an
application. -/
def Movable : Prop :=
  ∀ r ∈ c.redirections, r.operator = .input ∧ Application.isName r.target = false

theorem runLine_trailing (out : List Value) (w : World) :
    runLine c.trailing out w = runMade out (((fun notes => [gather [[c.name]] notes]) <$>
      (deedsOfAll c.arguments ++ c.redirectionDeeds).mapM (settle runPlain)) w) := by
  have hatoms : ∀ x ∈ c.arguments.map (fun t => (t, argumentDeeds (t, partsOf t))) ++
      c.redirections.map (fun r => (r.text, r.deeds)), AtomAs x.1 x.2 :=
    List.forall_mem_append.mpr
      ⟨List.forall_mem_map.mpr fun t ht => (c.areArguments t ht).readAs.atom,
        List.forall_mem_map.mpr fun r _ => r.redirectsAs.atom⟩
  obtain ⟨hline, hblocks⟩ := blocksOf_atoms c.isName (Segment.readAs_name c.isName) hatoms runPlain
  have htexts : (c.arguments.map (fun t => (t, argumentDeeds (t, partsOf t))) ++
      c.redirections.map (fun r => (r.text, r.deeds))).map Prod.fst =
        c.arguments ++ c.redirections.map WrittenRedirection.text := by
    simp [Function.comp_def]
  have hdeeds : (c.arguments.map (fun t => (t, argumentDeeds (t, partsOf t))) ++
      c.redirections.map (fun r => (r.text, r.deeds))).flatMap Prod.snd =
        deedsOfAll c.arguments ++ c.redirectionDeeds := by
    simp [deedsOfAll, redirectionDeeds, List.flatMap_map]
  rw [htexts] at hline hblocks
  rw [hdeeds] at hblocks
  rw [trailing, runLine, hline.runWith_eq, hblocks]

/-- What is done behind the first redirection of a line that starts with it. -/
def deedsBehind (r : WrittenRedirection) (rs : List WrittenRedirection) : List Deed :=
  argumentDeeds (r.target, partsOf r.target) ++ (rs.flatMap WrittenRedirection.deeds ++
    ([.argument c.name, .word c.name].map Deed.note ++ deedsOfAll c.arguments))

variable {c} {r : WrittenRedirection} {rs : List WrittenRedirection} {w w' : World}
  {p : List Note × List Note} {notes : List Note}

theorem exists_consists_leading (h : c.redirections = r :: rs) :
    ∃ span, Consists c.leading span [] [] ∧
      Tree.deeds (.node .call span.2) =
        [.expected, .redirection r.operator.text].map .note ++ c.deedsBehind r rs := by
  have hheads : ∀ x ∈ c.redirections.map (fun r => (r.text, r.deeds)), RedirectsAs x.1 x.2 :=
    List.forall_mem_map.mpr fun r _ => r.redirectsAs
  have htails : ∀ x ∈ c.arguments.map (fun t => (t, argumentDeeds (t, partsOf t))),
      AtomAs x.1 x.2 := List.forall_mem_map.mpr fun t ht => (c.areArguments t ht).readAs.atom
  obtain ⟨span, hconsists, hdeeds, -⟩ :=
    exists_consists_line hheads (Segment.readAs_name c.isName) htails
  refine ⟨span, ?_, ?_⟩
  · simpa [leading, Function.comp_def] using hconsists
  · have hheads : (c.redirections.map fun r => (r.text, r.deeds)).flatMap Prod.snd =
        r.deeds ++ rs.flatMap WrittenRedirection.deeds := by simp [h, List.flatMap_map]
    have htails : (c.arguments.map fun t => (t, argumentDeeds (t, partsOf t))).flatMap Prod.snd =
        deedsOfAll c.arguments := by simp [deedsOfAll, List.flatMap_map]
    rw [hdeeds, hheads, htails, deedsBehind, WrittenRedirection.deeds]
    simp [argumentDeeds]

/-! ### The same rows in another order -/

theorem mapM_of_commutes (h : c.Commutes w) :
    (deedsOfAll c.arguments ++ c.redirectionDeeds).mapM (settle runPlain) w =
      (do
        let rs ← c.redirectionDeeds.mapM (settle runPlain)
        let xs ← (deedsOfAll c.arguments).mapM (settle runPlain)
        pure (xs ++ rs)) w := by
  have hpairs := map_congr_at h fun p : List Note × List Note => p.1 ++ p.2
  rw [List.mapM_append]
  simpa only [map_eq_pure_bind, bind_assoc, pure_bind] using hpairs.symm

/-- Words of the first redirection, and words of the arguments. -/
def made (c : RedirectedCall) (r : WrittenRedirection) :
    EStateM Fault World (List Note × List Note) := do
  let ts ← (argumentDeeds (r.target, partsOf r.target)).mapM (settle runPlain)
  let xs ← (deedsOfAll c.arguments).mapM (settle runPlain)
  pure (ts, xs)

theorem runLine_leading_single (h : c.redirections = [r]) (out : List Value) (w : World) :
    runLine c.leading out w = runMade out (((fun p : List Note × List Note =>
      [(collect 1 [[r.operator.text]] (p.1 ++ ([.argument c.name, .word c.name] ++ p.2))).2]) <$>
        c.made r) w) := by
  obtain ⟨span, hconsists, hdeeds⟩ := exists_consists_leading h
  rw [runLine, runWith_redirection hconsists hdeeds, deedsBehind, List.flatMap_nil,
    List.nil_append, List.mapM_append, mapM_settle_notes, made]
  simp only [map_eq_pure_bind, bind_assoc, pure_bind]

theorem runLine_trailing_single (h : c.redirections = [r]) (hc : c.Commutes w) (out : List Value) :
    runLine c.trailing out w = runMade out (((fun p : List Note × List Note =>
      [gather [[c.name]] (p.2 ++ (.redirection r.operator.text :: p.1))]) <$> c.made r) w) := by
  have hdeeds : c.redirectionDeeds = [.redirection r.operator.text].map Deed.note ++
      argumentDeeds (r.target, partsOf r.target) := by
    simp [redirectionDeeds, h, WrittenRedirection.deeds]
  have hmade := map_congr_at (mapM_of_commutes hc) fun notes => [gather [[c.name]] notes]
  rw [runLine_trailing, hmade, hdeeds, mapM_settle_notes, made]
  simp only [map_eq_pure_bind, bind_assoc, pure_bind, List.singleton_append]

theorem exists_of_made (hr : c.made r w = .ok p w') :
    ∃ (ws : List Text) (xs : List (Text × List Text)),
      p = (wordNotes (r.target, ws), xs.flatMap wordNotes) := by
  obtain ⟨ts, v, hts, h⟩ := exists_of_bind_eq_ok hr
  obtain ⟨ns, v', hns, h⟩ := exists_of_bind_eq_ok h
  cases h
  obtain ⟨ws, rfl⟩ := exists_argument_notes r.isArgument hts
  obtain ⟨xs, rfl⟩ := exists_arguments_notes c.areArguments hns
  exact ⟨ws, xs, rfl⟩

/-- The rows of a line that starts with its only redirection. -/
theorem collect_single (c : RedirectedCall) {t : Text} (ht : Application.isName t = false)
    (s : Text) (ws : List Text) (xs : List (Text × List Text)) :
    (collect 1 [[s]] (wordNotes (t, ws) ++ ([.argument c.name, .word c.name] ++
      xs.flatMap wordNotes))).2 = [s :: ws, c.name :: xs.flatMap Prod.snd] := by
  have hwithin : ∀ n ∈ xs.flatMap wordNotes, (Deed.note n).Within [] := by
    intro n hn
    obtain ⟨x, -, hn⟩ := List.mem_flatMap.mp hn
    rcases List.mem_cons.mp hn with rfl | hn
    · trivial
    · obtain ⟨u, -, rfl⟩ := List.mem_map.mp hn
      trivial
  have hfirst : collect 1 [[s]] (wordNotes (t, ws) ++ ([.argument c.name, .word c.name] ++
      xs.flatMap wordNotes)) = collect 1 [s :: ws] (.argument c.name :: .word c.name ::
        xs.flatMap wordNotes) := by
    rw [wordNotes, List.cons_append, collect, if_neg (by simp [ht]), ← List.nil_append [[s]],
      collect_words]
    rfl
  have hname : collect 1 [s :: ws] (.argument c.name :: .word c.name :: xs.flatMap wordNotes) =
      collect 0 [s :: ws, [c.name]] (xs.flatMap wordNotes) := by
    rw [collect, if_pos (by simp [c.isName])]
    rfl
  have hrows := gather_append_rows (List.cons_ne_nil [c.name] []) [s :: ws] (xs.flatMap wordNotes)
  rw [hfirst, hname, collect_within hwithin]
  exact hrows.trans (congrArg _ (gather_wordNotes [c.name] xs))

/-- The rows of a line that ends with its only redirection. -/
theorem gather_single (c : RedirectedCall) (s t : Text) (ws : List Text)
    (xs : List (Text × List Text)) :
    gather [[c.name]] (xs.flatMap wordNotes ++ (.redirection s :: wordNotes (t, ws))) =
      [c.name :: xs.flatMap Prod.snd, s :: ws] := by
  have hopen : gather [[c.name] ++ xs.flatMap Prod.snd] (.redirection s :: wordNotes (t, ws)) =
      gather ([[c.name] ++ xs.flatMap Prod.snd] ++ [[s]]) ([(t, ws)].flatMap wordNotes) := by
    rw [List.flatMap_singleton]
    rfl
  rw [gather_append, gather_wordNotes, hopen, gather_append_rows (by simp), gather_wordNotes]
  simp

theorem runMade_congr {α : Type} {x : EStateM Fault World α} {f g : α → List (List (List Text))}
    (h : ∀ a v, x w = .ok a v → runBlocks (f a) [] v = runBlocks (g a) [] v) (out : List Value) :
    runMade out ((f <$> x) w) = runMade out ((g <$> x) w) := by
  rw [map_eq_pure_bind, map_eq_pure_bind]
  cases hx : x w with
  | ok a v =>
      rw [bind_eq_of_ok hx, bind_eq_of_ok hx]
      exact congrArg (behind out) (h a v hx)
  | error e v => rw [bind_eq_of_error hx, bind_eq_of_error hx]

theorem runLine_leading_eq (hm : c.Movable) (hc : c.Commutes w) (out : List Value) :
    runLine c.leading out w = runLine c.trailing out w := by
  cases hr : c.redirections with
  | nil =>
      have hsame : c.leading = c.trailing := by simp [leading, trailing, preceding, hr]
      rw [hsame]
  | cons r rs =>
      obtain ⟨hinput, htarget⟩ := hm r (by simp [hr])
      have hone : rs = [] := by
        cases rs with
        | nil => rfl
        | cons r' rs =>
            have hinputs := c.inputs
            rw [List.filter_eq_self.mpr fun x hx => by simpa using (hm x hx).1, hr] at hinputs
            simp at hinputs
      subst hone
      rw [runLine_leading_single hr, runLine_trailing_single hr hc]
      refine runMade_congr (fun p v hp => ?_) out
      obtain ⟨ws, xs, rfl⟩ := exists_of_made hp
      rw [collect_single c htarget, gather_single, ← runBlocks_call, ← runBlocks_call]
      have hname := isText_of_isName c.isName (by decide : ['<'] ∈ operators)
      exact hinput ▸ Command.running_input_first hname _ _ [] [] v

/-! ### Lines that fail -/

theorem exists_notes_behind (h : (c.deedsBehind r rs).mapM (settle runPlain) w = .ok notes w') :
    ∃ (ws : List Text) (more : List Note),
      notes = .argument r.target :: (ws.map .word ++ more) ∧
      ∀ r' rs', rs = r' :: rs' → ∃ more', more = .redirection r'.operator.text :: more' := by
  obtain ⟨ms, more, v, hms, hmore, rfl⟩ := exists_of_mapM_append h
  obtain ⟨ws, rfl⟩ := exists_argument_notes r.isArgument hms
  refine ⟨ws, more, rfl, ?_⟩
  rintro r' rs' rfl
  obtain ⟨more', -, rfl⟩ := exists_of_mapM_note hmore
  exact ⟨more', rfl⟩

/-- A call fails whose rows start with a redirection, unless it is the only one and reads a file
that has no name of an application. -/
theorem exists_call_error (hr : c.redirections = r :: rs) (hm : ¬ c.Movable)
    (hn : (c.deedsBehind r rs).mapM (settle runPlain) w = .ok notes w') :
    ∃ e, (Command.call (textRows (collect 1 [[r.operator.text]] notes).2) [] [] w').running =
      ([], w', some e) := by
  by_cases hinput : r.operator = .input
  · obtain ⟨ws, more, rfl, hmore⟩ := exists_notes_behind hn
    rw [hinput]
    by_cases htarget : Application.isName r.target = true
    · rw [collect_name htarget]
      exact ⟨.severalInputs, Command.running_of_no_file _ [] [] w'⟩
    · have htext : Application.isName r.target = false := by simpa using htarget
      cases rs with
      | nil =>
          refine absurd ?_ hm
          simpa [Movable, hr] using ⟨hinput, htext⟩
      | cons r' rs =>
          obtain ⟨more', rfl⟩ := hmore r' rs rfl
          obtain ⟨row, rows, hrows⟩ := exists_collect_two htext ['<'] r'.operator.text ws more'
          rw [Command.Operator.text, hrows]
          exact Command.exists_running_of_input_output r'.operator _ _ _ [] [] w'
  · obtain ⟨row, rows, hrows⟩ := collect_extends 1 [] [r.operator.text] notes
    rw [← List.nil_append [[r.operator.text]], hrows]
    exact Command.exists_running_of_output hinput _ _ [] [] w'

/-- Such a line fails, and nothing is run for it but what stands between back quotes. -/
theorem exists_runLine_error (hm : ¬ c.Movable) (out : List Value) (w : World) :
    ∃ e, runLine c.leading out w = (out, (draftLine c.leading w).world, some e) := by
  obtain ⟨r, rs, hr⟩ : ∃ r rs, c.redirections = r :: rs := by
    apply List.exists_cons_of_ne_nil
    intro hnil
    exact hm (by simp [Movable, hnil])
  obtain ⟨span, hconsists, hdeeds⟩ := exists_consists_leading hr
  rw [runLine, runWith_redirection hconsists hdeeds, map_eq_pure_bind, draftLine]
  cases hn : (c.deedsBehind r rs).mapM (settle runPlain) w with
  | error e w' =>
      obtain ⟨d, hdraft⟩ := exists_draftWith_of_error hconsists hdeeds hn
      rw [bind_eq_of_error hn, hdraft]
      exact ⟨_, rfl⟩
  | ok notes w' =>
      obtain ⟨e, he⟩ := exists_call_error hr hm hn
      rw [bind_eq_of_ok hn, draftWith_of_notes hconsists hdeeds hn]
      refine ⟨e, ?_⟩
      change behind out (runBlocks [_] [] w') = _
      rw [← runBlocks_call]
      exact congrArg (behind out) he

/-! ### Lines without back quotes -/

theorem exists_notes_flatMap {α : Type} {f : α → List Deed} {xs : List α}
    (h : ∀ x ∈ xs, ∃ notes : List Note, f x = notes.map .note) :
    ∃ notes : List Note, xs.flatMap f = notes.map .note := by
  induction xs with
  | nil => exact ⟨[], rfl⟩
  | cons x xs ih =>
      obtain ⟨notes, hnotes⟩ := h x (by simp)
      obtain ⟨more, hmore⟩ := ih fun y hy => h y (by simp [hy])
      exact ⟨notes ++ more, by rw [List.flatMap_cons, hnotes, hmore, List.map_append]⟩

theorem commutes_of_arguments (h : ∀ t ∈ c.arguments, Text.backQuote ∉ t) (w : World) :
    c.Commutes w := by
  obtain ⟨notes, hnotes⟩ : ∃ notes : List Note, deedsOfAll c.arguments = notes.map .note := by
    refine exists_notes_flatMap fun t ht => ?_
    obtain ⟨notes, hnotes⟩ := (c.areArguments t ht).exists_notes (h t ht)
    exact ⟨.argument t :: notes, by rw [argumentDeeds, hnotes, List.map_cons]⟩
  rw [Commutes, hnotes, mapM_settle_all_notes]
  simp only [pure_bind]

theorem commutes_of_targets (h : ∀ r ∈ c.redirections, Text.backQuote ∉ r.target) (w : World) :
    c.Commutes w := by
  obtain ⟨notes, hnotes⟩ : ∃ notes : List Note, c.redirectionDeeds = notes.map .note := by
    refine exists_notes_flatMap fun r hr => ?_
    obtain ⟨notes, hnotes⟩ := r.isArgument.exists_notes (h r hr)
    refine ⟨.redirection r.operator.text :: .argument r.target :: notes, ?_⟩
    rw [WrittenRedirection.deeds, argumentDeeds, hnotes, List.map_cons, List.map_cons]
  rw [Commutes, hnotes, mapM_settle_all_notes]
  simp only [pure_bind]

end RedirectedCall

/-- A line with its redirections before the name does what it does with them at its end, if there is
none but one that reads a file that has no name of an application. Otherwise it fails, and nothing is
run for it but what stands between back quotes; so where the line with the redirections at its end
succeeds, the two differ. What stands between back quotes is run in the order of the line, so this
presupposes that the redirections and the arguments can change places in that; they can if only one
side has back quotes. -/
theorem leading_redirections_iff (c : RedirectedCall) (out : List Value) (w : World) :
    (c.Movable → c.Commutes w → runLine c.leading out w = runLine c.trailing out w) ∧
    (¬ c.Movable →
      ∃ e, runLine c.leading out w = (out, (draftLine c.leading w).world, some e)) ∧
    (c.Commutes w → (runLine c.trailing out w).2.2 = none →
      (runLine c.leading out w = runLine c.trailing out w ↔ c.Movable)) ∧
    ((∀ t ∈ c.arguments, Text.backQuote ∉ t) ∨ (∀ r ∈ c.redirections, Text.backQuote ∉ r.target) →
      c.Commutes w) := by
  refine ⟨fun hm hc => RedirectedCall.runLine_leading_eq hm hc out,
    fun hm => RedirectedCall.exists_runLine_error hm out w, fun hc hdone => ⟨?_, ?_⟩, ?_⟩
  · intro hsame
    by_contra hm
    obtain ⟨e, he⟩ := RedirectedCall.exists_runLine_error hm out w
    rw [← hsame, he] at hdone
    cases hdone
  · exact fun hm => RedirectedCall.runLine_leading_eq hm hc out
  · rintro (h | h)
    · exact RedirectedCall.commutes_of_arguments h w
    · exact RedirectedCall.commutes_of_targets h w

/-- `cat` with a file to read before it, and `echo` with a file to write to before it. -/
theorem leading_redirections_iff_cat :
    runLine "<f cat".toList [] World.odd = runLine "cat <f".toList [] World.odd ∧
      (∃ e, runLine ">> f echo a".toList [] World.odd =
        ([], (draftLine ">> f echo a".toList World.odd).world, some e)) ∧
      (runLine "echo a >> f".toList [] World.odd).2.2 = none := by
  have hword : ∀ c : Char, c ∉ separators → IsArgumentText [c] := fun c hc =>
    (Segment.readAs_bare (List.cons_ne_nil c []) (List.forall_mem_singleton.mpr hc)).isArgumentText
  have hf : IsArgumentText ['f'] := hword 'f' (by decide)
  have ha : IsArgumentText ['a'] := hword 'a' (by decide)
  let read : RedirectedCall :=
    ⟨"cat".toList, [], [⟨.input, [], ['f'], List.forall_mem_nil _, hf⟩], by decide,
      List.forall_mem_nil _, Nat.le_refl 1⟩
  let write : RedirectedCall :=
    ⟨"echo".toList, [['a']], [⟨.appending, [' '], ['f'], by simp, hf⟩], by decide,
      List.forall_mem_singleton.mpr ha, Nat.zero_le 1⟩
  have hname : Application.isName ['f'] = false := by decide
  have hmovable : read.Movable := List.forall_mem_singleton.mpr ⟨rfl, hname⟩
  have hstuck : ¬ write.Movable := by
    intro h
    cases (h _ List.mem_cons_self).1
  obtain ⟨heq, -, -, hcommutes⟩ := leading_redirections_iff read [] World.odd
  obtain ⟨-, hfails, -, -⟩ := leading_redirections_iff write [] World.odd
  refine ⟨heq hmovable (hcommutes (Or.inl (List.forall_mem_nil _))), hfails hstuck, ?_⟩
  decide +kernel

end CommandShell
