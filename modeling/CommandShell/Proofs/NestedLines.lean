import CommandShell.Proofs.OutputTexts
import CommandShell.Proofs.Segments
import CommandShell.Proofs.UnmarkedLines

/-! # Lines between back quotes

A line between back quotes is run as it would be on its own, and its output less the last character
makes one word with the bare texts around it. The line in which it stands is drafted as if that word
had been written there. There is one exception: output that holds lists makes no word, and drafting
fails once the line between the quotes has been run. -/

namespace CommandShell

open Parse Grammar Spelling CommandShell.Tree

/-! ### Output behind other output -/

/-- What has been given out before comes first, and makes no other difference. -/
theorem Script.runFrom_append (rows : List Row) (input final before out : List Value) (w : World)
    (commands : List (Form × List Nat)) :
    runFrom rows input final (before ++ out) w commands =
      (before ++ (runFrom rows input final out w commands).1,
        (runFrom rows input final out w commands).2) := by
  induction commands generalizing rows input final out w with
  | nil => rfl
  | cons command rest ih =>
      obtain ⟨form, ids⟩ := command
      rw [runFrom, runFrom]
      cases (Command.run form (rowsAt ⟨rows, []⟩ ids) input final w).fault with
      | some e => rfl
      | none =>
          dsimp only
          rw [List.append_assoc]
          exact ih _ _ _ _ _

theorem runWith_append (run : Text → List Value → World → Running) (line : Text)
    (out : List Value) (w : World) :
    runWith run line out w = (out ++ (runWith run line [] w).1, (runWith run line [] w).2) := by
  rw [runWith, runWith]
  cases (draftWith run line w).commands with
  | error e =>
      dsimp only
      rw [List.append_nil]
  | ok commands =>
      have hrun := Script.runFrom_append ((draftWith run line w).draft.script commands).rows [] []
        out [] (draftWith run line w).world commands
      rw [List.append_nil] at hrun
      exact hrun

theorem Running.eq_of_succeeds {r : Running} {out : List Value} (hout : r.1 = out)
    (hfault : r.2.2 = none) : r = (out, r.2.1, none) := by
  rw [← hout, ← hfault]

/-! ### Output as a word -/

namespace Drafting

theorem backQuoted?_around {before inner : Text} (hb : Text.backQuote ∉ before)
    (hi : Text.backQuote ∉ inner) (after : Text) :
    backQuoted? (around Text.backQuote before inner after) = some (before, inner, after) := by
  have hpos : ∀ {t : Text}, Text.backQuote ∉ t → ∀ c ∈ t, decide (c ≠ Text.backQuote) = true := by
    intro t ht c hc
    exact decide_eq_true (ne_of_mem_of_not_mem hc ht)
  have hdrop : ∀ {t : Text}, Text.backQuote ∉ t → ∀ rest : Text,
      (t ++ Text.backQuote :: rest).dropWhile (· ≠ Text.backQuote) = Text.backQuote :: rest := by
    intro t ht rest
    rw [List.dropWhile_append_of_pos (hpos ht)]
    rfl
  have htake : ∀ {t : Text}, Text.backQuote ∉ t → ∀ rest : Text,
      (t ++ Text.backQuote :: rest).takeWhile (· ≠ Text.backQuote) = t := by
    intro t ht rest
    rw [List.takeWhile_append_of_pos (hpos ht)]
    exact List.append_nil t
  simp only [backQuoted?, around, hdrop hb, hdrop hi, htake hb, htake hi]

theorem trimLast_append (vs : List Value) (v : Value) (rest : List Value) :
    trimLast (vs ++ v :: rest) = vs ++ trimLast (v :: rest) := by
  induction vs with
  | nil => rfl
  | cons u us ih =>
      cases us with
      | nil => rfl
      | cons x xs =>
          change u :: trimLast (x :: xs ++ v :: rest) = _
          rw [ih]
          rfl

theorem joined_texts (n : Nat) (ts : List Text) : joined n (ts.map .text) = .ok ts.flatten := by
  induction ts generalizing n with
  | nil => rfl
  | cons t ts ih =>
      rw [List.map_cons, joined, ih]
      rfl

theorem joined_list (n : Nat) (ts : List Text) (xs rest : List Value) :
    joined n (ts.map .text ++ .list xs :: rest) = .error (.joinList (n + ts.length)) := by
  induction ts generalizing n with
  | nil => rfl
  | cons t ts ih =>
      rw [List.map_cons, List.cons_append, joined, ih, List.length_cons]
      dsimp only
      rw [Nat.add_assoc, Nat.add_comm 1]

/-- The word that texts given out come to between bare texts. -/
def pasted (before : Text) (items : List Text) (last after : Text) : Text :=
  before ++ (items.flatten ++ (last.dropLast ++ after))

theorem joined_output (before : Text) (items : List Text) (last after : Text) :
    joined 0 (trimLast (.text before :: (items ++ [last]).map .text) ++ [.text after]) =
      .ok (pasted before items last after) := by
  have hout : .text before :: (items ++ [last]).map Value.text =
      (before :: items).map .text ++ .text last :: [] := by simp
  have htrim : (before :: items).map Value.text ++ trimLast [.text last] ++ [.text after] =
      (before :: (items ++ [last.dropLast, after])).map .text := by simp [trimLast, Value.dropLast]
  rw [hout, trimLast_append, htrim, joined_texts]
  simp [pasted]

theorem joined_output_list (before : Text) (items : List Text) (xs rest : List Value)
    (after : Text) :
    joined 0 (trimLast (.text before :: (items.map .text ++ .list xs :: rest)) ++ [.text after]) =
      .error (.joinList (items.length + 1)) := by
  have hout : .text before :: (items.map Value.text ++ .list xs :: rest) =
      (before :: items).map .text ++ .list xs :: rest := rfl
  -- The first list stays one, also where it is the last item and loses a member.
  obtain ⟨ys, more, htrim⟩ : ∃ ys more, trimLast (.list xs :: rest) = .list ys :: more := by
    cases rest with
    | nil => exact ⟨xs.dropLast, [], rfl⟩
    | cons v vs => exact ⟨xs, trimLast (v :: vs), rfl⟩
  rw [hout, trimLast_append, htrim, List.append_assoc, List.cons_append, joined_list,
    Nat.zero_add, List.length_cons]

end Drafting

/-! ### Lines with a line between back quotes -/

section Nested

variable {name before inner after : Text} {words : List Text}

theorem solid_around (hb : ∀ c ∈ before, c ∉ separators) (ha : ∀ c ∈ after, c ∉ separators) :
    Solid (around Text.backQuote before inner after) where
  nonempty := List.append_ne_nil_of_right_ne_nil before (List.cons_ne_nil _ _)
  first := by
    intro c hc
    rw [around, List.append_cons, List.head?_append_of_ne_nil _ (by simp)] at hc
    rcases List.mem_append.mp (List.mem_of_mem_head? hc) with hmem | hmem
    · rw [Kind.ofChar_of_notMem_separators (hb c hmem)]
      decide
    · rw [List.mem_singleton.mp hmem]
      decide
  last := by
    intro c hc
    rw [around, ← List.cons_append, ← List.append_assoc,
      List.getLast?_append_of_ne_nil _ (List.cons_ne_nil _ _)] at hc
    rcases List.mem_cons.mp (List.mem_of_getLast? hc) with rfl | hmem
    · decide
    · rw [Kind.ofChar_of_notMem_separators (ha c hmem)]
      decide

theorem argument_around (hb : ∀ c ∈ before, c ∉ separators) (hi : ∀ c ∈ inner, c ∉ unrunnable)
    (ha : ∀ c ∈ after, c ∉ separators) :
    Argument (kindsOf (Token.ofText (around Text.backQuote before inner after))) := by
  have hwords : ∀ {t : Text}, (∀ c ∈ t, c ∉ separators) → ∃ n,
      kindsOf (Token.ofText t) = List.replicate n .word := by
    intro t ht
    refine ⟨_, List.eq_replicate_of_mem fun k hk => ?_⟩
    obtain ⟨u, hu, rfl⟩ := List.mem_map.mp hk
    exact List.mem_singleton.mp ((areWords_bare ht).1 u hu)
  have hkinds : ∀ k ∈ kindsOf (Token.ofText inner), k ∈ backKinds :=
    List.forall_mem_map.mpr (Token.kind_of_mem_ofText fun c hc =>
      Kind.ofChar_of_notMem_unrunnable (hi c hc))
  obtain ⟨m, hm⟩ := hwords hb
  obtain ⟨n, hn⟩ := hwords ha
  have hback := (Stretch.back hkinds).argument.beside m n
  have hmark : (markOf Text.backQuote).kind = .backMark := rfl
  rw [ofText_around rfl, kindsOf_append, kindsOf_cons, kindsOf_append, kindsOf_cons, hm, hn]
  simpa [between, hmark] using hback

/-- A line between back quotes is one substitution with the bare texts around it. -/
theorem readAs_back (hb : ∀ c ∈ before, c ∉ separators) (hi : ∀ c ∈ inner, c ∉ unrunnable)
    (ha : ∀ c ∈ after, c ∉ separators) :
    ReadAs (around Text.backQuote before inner after)
      [.substitute (around Text.backQuote before inner after)] where
  toSolid := solid_around hb ha
  spelled := argument_around hb hi ha
  reads := by
    have hpieces : Pieces (Token.ofText (around Text.backQuote before inner after) ++ [])
        [.node .quoted [.node .backQuoted (leavesAround Text.backQuote before inner after)]] := by
      refine .cons (kindAt_around rfl (by decide) hb) ?_ .nil
      intro rest hrest level todo
      refine builds_back hb hi ha fun hword => hrest ?_
      rw [List.nil_append] at hword
      rw [hword]
      decide
    rw [List.append_nil] at hpieces
    refine ⟨_, hpieces.reads (List.cons_ne_nil _ _), ?_, ?_⟩
    · rw [textAll_cons, text_node, textAll_cons, text_node, textAll_leavesAround]
      simp
    · rw [deedsAll_cons, deeds_quoted, deedsAll_cons, deeds_backQuoted, textAll_leavesAround]
      rfl

/-- The row of a line of which one argument is made by a substitution. -/
theorem blocksOf_substitute_between {more : List Text} (hname : Application.isName name = true)
    (hw : ∀ t ∈ words, t ≠ [] ∧ ∀ c ∈ t, c ∉ separators)
    (hm : ∀ t ∈ more, t ≠ [] ∧ ∀ c ∈ t, c ∉ separators) {nested : Text}
    (hn : ReadAs nested [.substitute nested]) (run : Text → List Value → World → Running) :
    CallLine (name ++ following (words ++ nested :: more)) ∧
      blocksOf run (name ++ following (words ++ nested :: more)) =
        (fun word => [[name :: (words ++ word :: more)]]) <$> Drafting.substitution run nested := by
  have hbare : ∀ {ts : List Text}, (∀ t ∈ ts, t ≠ [] ∧ ∀ c ∈ t, c ∉ separators) →
      ∀ x ∈ ts.map (fun t => (t, [Deed.note (.word t)])), ReadAs x.1 x.2 := fun h =>
    List.forall_mem_map.mpr fun t ht => Segment.readAs_bare (h t ht).1 (h t ht).2
  have hreads : ∀ x ∈ words.map (fun t => (t, [Deed.note (.word t)])) ++
      (nested, [.substitute nested]) :: more.map (fun t => (t, [Deed.note (.word t)])),
        ReadAs x.1 x.2 :=
    List.forall_mem_append.mpr ⟨hbare hw, List.forall_mem_cons.mpr ⟨hn, hbare hm⟩⟩
  obtain ⟨hline, hblocks⟩ := blocksOf_line hname (Segment.readAs_name hname) hreads run
  have htexts : (words.map (fun t => (t, [Deed.note (.word t)])) ++ (nested,
      [Deed.substitute nested]) :: more.map (fun t => (t, [Deed.note (.word t)]))).map Prod.fst =
        words ++ nested :: more := by
    simp [Function.comp_def]
  have hdeeds : (words.map (fun t => (t, [Deed.note (.word t)])) ++ (nested,
      [Deed.substitute nested]) :: more.map (fun t => (t, [Deed.note (.word t)]))).flatMap
        argumentDeeds =
          ((words.map fun t => (t, [t])).flatMap wordNotes ++ [Note.argument nested]).map Deed.note ++
            (.substitute nested :: ((more.map fun t => (t, [t])).flatMap wordNotes).map .note) := by
    simp [argumentDeeds, wordNotes, List.flatMap_map, List.map_flatMap]
  have hgather : ∀ word, gather [[name]] ((words.map fun t => (t, [t])).flatMap wordNotes ++
      [.argument nested] ++ .word word :: (more.map fun t => (t, [t])).flatMap wordNotes) =
        [name :: (words ++ word :: more)] := by
    intro word
    have h := gather_wordNotes [name] (words.map (fun t => (t, [t])) ++ (nested, [word]) ::
      more.map fun t => (t, [t]))
    simpa [wordNotes, List.flatMap_map] using h
  rw [htexts] at hline hblocks
  refine ⟨hline, ?_⟩
  rw [hblocks, hdeeds, Drafting.mapM_settle_notes, List.mapM_cons, Drafting.settle,
    Drafting.mapM_settle_all_notes]
  simp only [map_eq_pure_bind, bind_assoc, pure_bind, hgather]

/-- The row of a line whose last argument is made by a substitution. -/
theorem blocksOf_substitute (hname : Application.isName name = true)
    (hw : ∀ t ∈ words, t ≠ [] ∧ ∀ c ∈ t, c ∉ separators) {nested : Text}
    (hn : ReadAs nested [.substitute nested]) (run : Text → List Value → World → Running) :
    CallLine (name ++ following (words ++ [nested])) ∧
      blocksOf run (name ++ following (words ++ [nested])) =
        (fun word => [[name :: (words ++ [word])]]) <$> Drafting.substitution run nested :=
  blocksOf_substitute_between hname hw (List.forall_mem_nil _) hn run

end Nested

theorem CallLine.draftWith_row {line : Text} (h : CallLine line)
    {run : Text → List Value → World → Running} {row : List Text} {w w' : World}
    (hb : blocksOf run line w = .ok [[row]] w') :
    draftWith run line w = ⟨.flat [row] 1 [], .ok [(.call, [0])], w'⟩ := by
  have hone : (treeOf line).items.length = 1 := (h.forall₂_blocks hb).length_eq
  rw [h.draftWith_of_ok hb rfl, Draft.commands_calls h.isCommand h.calls, hone]
  rfl

/-- A call whose last argument holds a line between back quotes. -/
def nestedLine (name : Text) (words : List Text) (before inner after : Text) : Text :=
  name ++ following (words ++ [around Text.backQuote before inner after])

/-- A line between back quotes is run as on its own, and what it gives out becomes one word of the
call around it, unless it gives out lists. It gives out texts if it comes to one command. -/
theorem draftLine_nested {name before inner after : Text} {words : List Text} {w w' : World}
    {out : List Value} (hname : Application.isName name = true)
    (hwords : ∀ t ∈ words, t ≠ [] ∧ ∀ c ∈ t, c ∉ separators)
    (hbefore : ∀ c ∈ before, c ∉ separators) (hinner : ∀ c ∈ inner, c ∉ unrunnable)
    (hafter : ∀ c ∈ after, c ∉ separators) (hrun : runLine inner [] w = (out, w', none)) :
    (∀ (items : List Text) (last : Text), out = (items ++ [last]).map .text →
      draftLine (nestedLine name words before inner after) w =
        { draft :=
            { rows := [name :: (words ++ [Drafting.pasted before items last after])]
              past := []
              tree := [0]
              position := 0
              sequences := 1
              queue := [] }
          commands := .ok [(.call, [0])]
          world := w' }) ∧
      (∀ (items : List Text) (xs rest : List Value), out = items.map .text ++ .list xs :: rest →
        (draftLine (nestedLine name words before inner after) w).commands =
            .error (.joinList (items.length + 1)) ∧
          (draftLine (nestedLine name words before inner after) w).world = w') ∧
      ∀ command, (draftLine inner w).commands = .ok [command] → AllTexts out := by
  have hback : ∀ {t : Text}, (∀ c ∈ t, c ∉ separators) → Text.backQuote ∉ t :=
    fun ht hmem => ht _ hmem (by decide)
  have hunmarked : Text.backQuote ∉ inner := fun hmem => hinner _ hmem (by decide)
  have hquoted := Drafting.backQuoted?_around (hback hbefore) hunmarked after
  -- The inner line has no back quotes, so running it as one between back quotes is running it.
  have hplain : runPlain inner [.text before] w = (.text before :: out, w', none) := by
    rw [runPlain_eq_runLine hunmarked, runLine, runWith_append, ← runLine, hrun]
    rfl
  have hline : CallLine (nestedLine name words before inner after) ∧
      blocksOf runPlain (nestedLine name words before inner after) = _ :=
    blocksOf_substitute hname hwords (readAs_back hbefore hinner hafter) runPlain
  refine ⟨?_, ?_, ?_⟩
  · rintro items last rfl
    have hword := Drafting.substitution_of_ok hquoted hplain
      (Drafting.joined_output before items last after)
    apply hline.1.draftWith_row
    rw [hline.2, map_eq_pure_bind, Drafting.bind_eq_of_ok hword]
    rfl
  · rintro items xs rest rfl
    have hfault := Drafting.substitution_of_error hquoted hplain
      (Drafting.joined_output_list before items xs rest after)
    have hblocks : blocksOf runPlain (nestedLine name words before inner after) w =
        .error (.joinList (items.length + 1)) w' := by
      rw [hline.2, map_eq_pure_bind, Drafting.bind_eq_of_error hfault]
    obtain ⟨d, hdraft⟩ := hline.1.draftWith_of_error hblocks
    rw [draftLine, hdraft]
    exact ⟨rfl, rfl⟩
  · intro command hcommand
    have htexts := allTexts_runWith hcommand
    rwa [← runLine, hrun] at htexts

/-- A file with one line. -/
def World.oneLine : World :=
  { World.bare with root := .folder [("f".toList, .file (.text ['a', '\n']))] }

/-- A pipe makes a word. The same file read by a sequence before a pipe is given out by the pipe as
a list, and makes none. -/
theorem draftLine_nested_cat :
    (draftLine "echo w x`cat f | sort`y".toList World.oneLine).draft.rows =
        [["echo".toList, "w".toList, "xay".toList]] ∧
      (draftLine "echo x`cat < f; cat | cat`y".toList World.oneLine).commands =
        .error (.joinList 2) := by
  have hname : Application.isName "echo".toList = true := by decide
  have hw : ∀ t ∈ [['w']], t ≠ [] ∧ ∀ c ∈ t, c ∉ separators :=
    List.forall_mem_singleton.mpr ⟨by simp, notMem_of_all (by decide)⟩
  have hx : ∀ c ∈ ['x'], c ∉ separators := notMem_of_all (by decide)
  have hy : ∀ c ∈ ['y'], c ∉ separators := notMem_of_all (by decide)
  have hpipe : runLine "cat f | sort".toList [] World.oneLine =
      ([.text ['a', '\n']], (runLine "cat f | sort".toList [] World.oneLine).2.1, none) :=
    Running.eq_of_succeeds (by decide +kernel) (by decide +kernel)
  have hmixed : runLine "cat < f; cat | cat".toList [] World.oneLine =
      ([.text ['a', '\n'], .list [.text ['a', '\n']]],
        (runLine "cat < f; cat | cat".toList [] World.oneLine).2.1, none) :=
    Running.eq_of_succeeds (by decide +kernel) (by decide +kernel)
  have hline : "echo w x`cat f | sort`y".toList =
      nestedLine "echo".toList [['w']] ['x'] "cat f | sort".toList ['y'] := by decide
  have hline' : "echo x`cat < f; cat | cat`y".toList =
      nestedLine "echo".toList [] ['x'] "cat < f; cat | cat".toList ['y'] := by decide
  obtain ⟨hword, -, -⟩ := draftLine_nested hname hw hx (notMem_of_all (by decide)) hy hpipe
  obtain ⟨-, hfault, -⟩ := draftLine_nested hname (List.forall_mem_nil _) hx
    (notMem_of_all (by decide)) hy hmixed
  rw [hline, hline', hword [] ['a', '\n'] rfl]
  exact ⟨rfl, (hfault [['a', '\n']] _ [] rfl).1⟩

end CommandShell
