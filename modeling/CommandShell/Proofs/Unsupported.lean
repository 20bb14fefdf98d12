import CommandShell.Proofs.Sequences

/-! # Calls of programs that are no applications

A word needs a row to go to, and only names of applications and redirections start rows. A line is
refused when its first word finds no row. After that there is always a row, and the words of a
call whose program is no application go to the row of whatever came before. -/

namespace CommandShell

namespace Note

def word? : Note → Option Text
  | .word t => some t
  | _ => none

end Note

namespace Tree

/-- The words that an argument is made of. -/
def words (a : Tree) : List Text := a.notes.filterMap Note.word?

/-- A call that starts with an argument that is not the name of an application. -/
def startsUnsupported (c : Tree) : Bool :=
  c.firstNode?.any (fun a => a.rule? = some .argument && !Application.isName a.text)

theorem startsUnsupported_of_startsWithName {c : Tree} (h : c.startsWithName = true) :
    c.startsUnsupported = false := by
  rw [startsWithName] at h
  rw [startsUnsupported]
  cases hf : c.firstNode? with
  | none => rfl
  | some a =>
      have hname : a.rule? = some .argument ∧ Application.isName a.text = true := by
        simpa [hf] using h
      simp [hname.2]

theorem IsArgument.notes_eq {a : Tree} (h : IsArgument a) (hp : Plain a) :
    a.notes = .argument a.text :: a.words.map Note.word ∧ a.words ≠ [] := by
  obtain ⟨hps⟩ := h
  next p ps =>
  obtain ⟨w, hw⟩ := (hps p (by simp)).exists_word (hp.kid (by simp))
  obtain ⟨ws, hws⟩ : ∃ ws : List Text, notesAll ps = ws.map Note.word :=
    exists_words (fun q hq => hps q (by simp [hq])) (fun q hq => hp.kid (by simp [hq]))
  have hnotes : notes (.node .argument (p :: ps)) =
      .argument (text (.node .argument (p :: ps))) :: (w :: ws).map Note.word := by
    rw [notes_argument, notesAll_cons, hw, hws, text_node]
    rfl
  have hwords : words (.node .argument (p :: ps)) = w :: ws := by
    rw [words, hnotes, List.filterMap_cons_none rfl, List.filterMap_map]
    exact List.filterMap_some
  rw [hwords]
  exact ⟨hnotes, by simp⟩

/-- How a call can start. -/
inductive Start (c : Tree) : Prop
  | redirection {s : Text} {rest : List Note} (starts : c.startsUnsupported = false)
      (notes : c.notes = .expected :: .redirection s :: rest)
  | named {name : Text} {rest : List Note} (starts : c.startsUnsupported = false)
      (h : c.Named name rest)
  | unsupported {a : Tree} {rest : List Note} (starts : c.startsUnsupported = true)
      (first : c.firstNode? = some a) (isName : Application.isName a.text = false)
      (words : a.words ≠ [])
      (notes : c.notes = .expected :: .argument a.text :: (a.words.map Note.word ++ rest))

theorem AtMostOne.notesAll_eq {lead : List Tree} (h : AtMostOne IsGap lead) :
    notesAll lead = [] := by
  rcases h with rfl | ⟨g, ⟨hg⟩, rfl⟩ <;> rfl

theorem IsCall.start {c : Tree} (h : IsCall c) (hp : Plain c) : Start c := by
  have hnamed := h.exists_named hp
  obtain ⟨hl, hh, hx, ht, hr⟩ := h
  next lead trail heads tails x =>
  have hlead := hl.notesAll_eq
  cases heads with
  | cons p ps =>
      have hrule := (hh p (by simp)).1.rule?_eq
      have hfirst : firstNode? (.node .call (lead ++ (paired (p :: ps) ++
          x :: (paired tails ++ trail)))) = some p.1 := by
        rw [firstNode?, kids, hl.find?_eq]
        simp [paired, hrule]
      obtain ⟨ks, hkids, -⟩ := (hh p (by simp)).1.kids_cases
      have hnotes : notes (.node .call (lead ++ (paired (p :: ps) ++
          x :: (paired tails ++ trail)))) = .expected :: .redirection (sign p.1) ::
            (notesAll ks ++ notesAll (p.2 :: (paired ps ++ x :: (paired tails ++ trail)))) := by
        rw [notes_call, notesAll_append, hlead]
        simp [paired, hkids]
      refine Start.redirection ?_ hnotes
      rw [startsUnsupported, hfirst]
      simp [hrule]
  | nil =>
      have hfirst : firstNode? (.node .call (lead ++ (paired [] ++
          x :: (paired tails ++ trail)))) = some x := by
        rw [firstNode?, kids, hl.find?_eq]
        simp [paired, hx.rule?_eq]
      cases hname : Application.isName x.text with
      | true =>
          have hstarts : startsWithName (.node .call (lead ++ (paired [] ++
              x :: (paired tails ++ trail)))) = true := by
            rw [startsWithName, hfirst]
            simp [hx.rule?_eq, hname]
          obtain ⟨name, rest, hn⟩ := hnamed hstarts
          refine Start.named ?_ hn
          rw [startsUnsupported, hfirst]
          simp [hname]
      | false =>
          obtain ⟨hnotes, hwords⟩ := hx.notes_eq (hp.kid (by simp))
          have hcall : notes (.node .call (lead ++ (paired [] ++ x :: (paired tails ++ trail)))) =
              .expected :: .argument x.text ::
                (x.words.map Note.word ++ notesAll (paired tails ++ trail)) := by
            rw [notes_call, notesAll_append, hlead]
            simp [paired, hnotes]
          refine Start.unsupported ?_ hfirst hname hwords hcall
          rw [startsUnsupported, hfirst]
          simp [hx.rule?_eq, hname]

end Tree

/-! ## The rows of such lines -/

namespace Draft

/-- A call that opens a row, by a redirection or by a name, can start a draft. -/
theorem item_first {c : Tree} (hr : c.rule? = some .call) (h : c.Start)
    (hs : c.startsUnsupported = false) :
    Draft.empty.item c = .ok (flat (collect 0 [] c.notes).2
      ((collect 0 [] c.notes).2.length + (collect 0 [] c.notes).1) []) ∧
      (collect 0 [] c.notes).2 ≠ [] := by
  rw [item_call hr]
  cases h with
  | @redirection s rest _ hnotes =>
      have hfollow : follow c.notes Draft.empty =
          follow rest (flat [[s]] ([[s]].length + 1) []) := by
        rw [hnotes]
        rfl
      have hcollect : collect 0 [] c.notes = collect 1 [[s]] rest := by
        rw [hnotes]
        rfl
      rw [hfollow, hcollect, follow_flat (by simp)]
      exact ⟨rfl, collect_ne_nil (by simp) 1 rest⟩
  | @named name rest _ hn =>
      have hfollow : follow c.notes Draft.empty =
          follow rest (flat [[name]] ([[name]].length + 0) []) := follow_named hn [] 0
      have hcollect : collect 0 [] c.notes = collect 0 [[name]] rest := by
        rw [hn.notes, collect, collect, if_pos (by simp [hn.isName])]
        rfl
      rw [hfollow, hcollect, follow_flat (by simp)]
      exact ⟨rfl, collect_ne_nil (by simp) 0 rest⟩
  | unsupported hu => simp [hu] at hs

/-- The words of a program that is no application find no row at the start of a line. -/
theorem item_unsupported {c : Tree} (hr : c.rule? = some .call) (h : c.Start)
    (hs : c.startsUnsupported = true) : ∃ d, Draft.empty.item c = .error d := by
  rw [item_call hr]
  cases h with
  | redirection hu => simp [hu] at hs
  | named hu => simp [hu] at hs
  | @unsupported a rest _ _ hname hwords hnotes =>
      obtain ⟨v, vs, hv⟩ := List.exists_cons_of_ne_nil hwords
      refine ⟨Draft.empty.expectRow, ?_⟩
      have hskip : Draft.empty.expectRow.note (.argument a.text) = .ok Draft.empty.expectRow := by
        rw [note, if_neg (by simp [hname])]
      rw [hnotes, hv, follow, note]
      simp only [follow, bind, Except.bind, hskip]
      rfl

theorem join_collect {cs : List Tree} (hc : ∀ c ∈ cs, c.rule? = some .call)
    {rows : List (List Text)} (hrows : rows ≠ []) (spare n : Nat) :
    join cs (flat rows (rows.length + spare) (callsQueue (n + 1))) =
      .ok (flat (collect spare rows (cs.flatMap Tree.notes)).2
        ((collect spare rows (cs.flatMap Tree.notes)).2.length +
          (collect spare rows (cs.flatMap Tree.notes)).1) (callsQueue (n + 1 + cs.length))) := by
  induction cs generalizing rows spare n with
  | nil => rfl
  | cons c cs ih =>
      have hitem := item_call (hc c (by simp)) (flat rows (rows.length + spare) (callsQueue (n + 1)))
      rw [follow_flat hrows] at hitem
      have hqueue : [Plan.sequence 0] = callsQueue (n + 1 + 1) := by
        rw [callsQueue, if_neg (by omega)]
      have hcount : n + 1 + (c :: cs).length = n + 1 + 1 + cs.length := by
        rw [List.length_cons]
        omega
      rw [join, hitem, List.flatMap_cons, collect_append, hcount]
      simp only [bind, Except.bind, closeSequence_flat, hqueue]
      exact ih (fun x hx => hc x (by simp [hx])) (collect_ne_nil hrows spare c.notes) _ _

/-- The draft of a line whose first call opens a row. -/
theorem ofItems_collect {c : Tree} {cs : List Tree} (hc : ∀ x ∈ c :: cs, x.rule? = some .call)
    (h : c.Start) (hs : c.startsUnsupported = false) :
    ofItems (c :: cs) Draft.empty =
      .ok (flat (collect 0 [] ((c :: cs).flatMap Tree.notes)).2
        ((collect 0 [] ((c :: cs).flatMap Tree.notes)).2.length +
          (collect 0 [] ((c :: cs).flatMap Tree.notes)).1) (callsQueue (c :: cs).length)) := by
  obtain ⟨hitem, hrows⟩ := item_first (hc c (by simp)) h hs
  have hcount : (c :: cs).length = 0 + 1 + cs.length := by
    rw [List.length_cons]
    omega
  rw [ofItems, hitem, List.flatMap_cons, collect_append, hcount]
  exact join_collect (fun x hx => hc x (by simp [hx])) hrows _ 0

theorem resolved_calls {t : Tree} (h : t.IsCommand) (hc : ∀ x ∈ t.items, x.rule? = some .call)
    (rows : List (List Text)) (sequences : Nat) (w : World) :
    (drafted t w (.ok (flat rows sequences (callsQueue t.items.length)))).resolved =
      .ok [(if t.items.length = 1 then .call else .sequence, rows)] := by
  rw [drafted, Drafted.resolved, commands_calls h hc, Except.map, resolve, List.map_singleton,
    words_flat]

end Draft

/-! ## Where the words go -/

theorem addToLast_concat (rows : List (List Text)) (row : List Text) (t : Text) :
    addToLast t (rows ++ [row]) = rows ++ [row ++ [t]] := addToLast_append (by simp) t rows

theorem collect_words (spare : Nat) (rows : List (List Text)) (row ws : List Text)
    (notes : List Note) :
    collect spare (rows ++ [row]) (ws.map Note.word ++ notes) =
      collect spare (rows ++ [row ++ ws]) notes := by
  induction ws generalizing row with
  | nil => simp
  | cons v ws ih =>
      rw [List.map_cons, List.cons_append, collect, addToLast_concat, ih, List.append_assoc,
        List.singleton_append]

/-- The last row can only get longer, and other rows come after it. -/
theorem collect_extends (spare : Nat) (rows : List (List Text)) (row : List Text)
    (notes : List Note) :
    ∃ more tail, (collect spare (rows ++ [row]) notes).2 = rows ++ (row ++ more) :: tail := by
  induction notes generalizing spare rows row with
  | nil => exact ⟨[], [], by simp [collect]⟩
  | cons n notes ih =>
      have hopen : ∀ (k : Nat) (words : List Text),
          ∃ more tail, (collect k (rows ++ [row] ++ [words]) notes).2 =
            rows ++ (row ++ more) :: tail := by
        intro k words
        obtain ⟨more, tail, hrows⟩ := ih k (rows ++ [row]) words
        exact ⟨[], (words ++ more) :: tail, by simpa using hrows⟩
      cases n with
      | expected => exact ih (spare + 1) rows row
      | redirection s => exact hopen spare [s]
      | argument t =>
          rw [collect]
          split
          · exact hopen (spare - 1) []
          · exact ih spare rows row
      | word t =>
          obtain ⟨more, tail, hrows⟩ := ih spare rows (row ++ [t])
          refine ⟨t :: more, tail, ?_⟩
          rw [collect, addToLast_concat, hrows, List.append_assoc, List.singleton_append]

namespace Tree

theorem collect_calls {cs : List Tree} (hc : ∀ c ∈ cs, ∃ name rest, c.Named name rest)
    (rows : List (List Text)) :
    collect 0 rows (cs.flatMap notes) = (0, rows ++ cs.flatMap Tree.rows) := by
  induction cs generalizing rows with
  | nil => simp [collect]
  | cons c cs ih =>
      obtain ⟨name, rest, hn⟩ := hc c (by simp)
      have hcall : collect 0 rows c.notes = (0, rows ++ c.rows) := by
        rw [hn.notes, collect, collect, if_pos (by simp [hn.isName]), collect, addToLast_concat,
          List.nil_append, collect_eq_gather hn.rest.orderly (Or.inl rfl),
          gather_append_rows (by simp), hn.rows_eq]
      rw [List.flatMap_cons, collect_append, hcall, ih fun x hx => hc x (by simp [hx]),
        List.append_assoc, List.flatMap_cons]

theorem Named.rows_ne_nil {c : Tree} {name : Text} {rest : List Note} (h : c.Named name rest) :
    c.rows ≠ [] := by
  apply List.ne_nil_of_length_pos
  rw [h.length_rows]
  omega

/-- The words of the program join the last row of the calls before it. -/
theorem collect_unsupported {before : List Tree} {c a : Tree} (hne : before ≠ [])
    (hb : ∀ b ∈ before, ∃ name rest, b.Named name rest) (h : c.Start)
    (hs : c.startsUnsupported = true) (ha : c.firstNode? = some a) (after : List Tree) :
    a.words ≠ [] ∧ ∃ rows last more tail, before.flatMap Tree.rows = rows ++ [last] ∧
      (collect 0 [] ((before ++ c :: after).flatMap notes)).2 =
        rows ++ (last ++ a.words ++ more) :: tail := by
  cases h with
  | redirection hu => simp [hu] at hs
  | named hu => simp [hu] at hs
  | @unsupported x rest _ hfirst hname hwords hnotes =>
      obtain rfl : x = a := by simpa [ha] using hfirst.symm
      have hrows : before.flatMap Tree.rows ≠ [] := by
        obtain ⟨b, bs, rfl⟩ := List.exists_cons_of_ne_nil hne
        obtain ⟨name, rest, hn⟩ := hb b (by simp)
        rw [List.flatMap_cons]
        exact List.append_ne_nil_of_left_ne_nil hn.rows_ne_nil _
      obtain ⟨rows, last, hlast⟩ : ∃ rows last, before.flatMap Tree.rows = rows ++ [last] :=
        ⟨_, _, (List.dropLast_append_getLast hrows).symm⟩
      obtain ⟨more, tail, hmore⟩ := collect_extends 1 rows (last ++ x.words)
        (rest ++ after.flatMap notes)
      refine ⟨hwords, rows, last, more, tail, hlast, ?_⟩
      rw [List.flatMap_append, collect_append, collect_calls hb, List.nil_append, hlast,
        List.flatMap_cons, hnotes, List.cons_append, List.cons_append, List.append_assoc, collect,
        collect, if_neg (by simp [hname]), collect_words]
      exact hmore

end Tree

namespace Clear

variable {line : Text} {c : Tree} {cs : List Tree}

theorem isCall (h : Clear line) (hi : (treeOf line).items = c :: cs)
    (hc : ∀ x ∈ c :: cs, x.rule? = some .call) {x : Tree} (hx : x ∈ c :: cs) :
    x.IsCall ∧ x.Plain := by
  obtain ⟨htree, hplain⟩ := h.isCommand (by simp [hi])
  obtain ⟨hpx, hcase⟩ := htree.each hplain x (by rw [hi]; exact hx)
  exact ⟨Tree.isCall_of_rule? hcase (hc x hx), hpx⟩

theorem draftLine_refused (h : Clear line) (hi : (treeOf line).items = c :: cs)
    (hc : ∀ x ∈ c :: cs, x.rule? = some .call) (hs : c.startsUnsupported = true) (w : World) :
    ∃ d, draftLine line w = ⟨d, .error .listIndex, w⟩ := by
  obtain ⟨hcall, hplain⟩ := h.isCall hi hc (List.mem_cons_self)
  obtain ⟨d, hd⟩ := Draft.item_unsupported (hc c (by simp)) (hcall.start hplain) hs
  refine ⟨d, (h.draftWith_eq runPlain w).trans ?_⟩
  rw [hi, Draft.ofItems, hd]
  rfl

theorem resolved_collect (h : Clear line) (hi : (treeOf line).items = c :: cs)
    (hc : ∀ x ∈ c :: cs, x.rule? = some .call) (hs : c.startsUnsupported = false) (w : World) :
    (draftLine line w).resolved = .ok [(if (c :: cs).length = 1 then .call else .sequence,
      (collect 0 [] ((c :: cs).flatMap Tree.notes)).2)] := by
  obtain ⟨hcall, hplain⟩ := h.isCall hi hc (List.mem_cons_self)
  obtain ⟨htree, -⟩ := h.isCommand (by simp [hi])
  have hresolved := Draft.resolved_calls htree (by rw [hi]; exact hc)
  rw [hi] at hresolved
  rw [draftLine, h.draftWith_eq, hi, Draft.ofItems_collect hc (hcall.start hplain) hs]
  exact hresolved _ _ w

end Clear

/-- A line of calls is refused, and nothing of it is run, if and only if its first call starts with
an argument that is no name. Otherwise it is run with the rows that its notes are collected in; the
words of a later program that is no application then belong to the call before it. -/
theorem unsupported_drafted {line : Text} (h : Clear line) {c : Tree} {cs : List Tree}
    (hi : (treeOf line).items = c :: cs) (hc : ∀ x ∈ c :: cs, x.rule? = some .call) (w : World) :
    ((∃ e, (draftLine line w).commands = .error e) ↔ c.startsUnsupported = true) ∧
      (c.startsUnsupported = true → ∀ out, runLine line out w = (out, w, some .notParsed)) ∧
      (c.startsUnsupported = false →
        (draftLine line w).resolved = .ok [(if (c :: cs).length = 1 then .call else .sequence,
          (collect 0 [] ((c :: cs).flatMap Tree.notes)).2)]) ∧
      ∀ before d after a, c :: cs = before ++ d :: after → before ≠ [] →
        (∀ b ∈ before, b.startsWithName = true) → d.startsUnsupported = true →
        d.firstNode? = some a →
        a.words ≠ [] ∧ ∃ rows last more tail, before.flatMap Tree.rows = rows ++ [last] ∧
          (draftLine line w).resolved =
            .ok [(.sequence, rows ++ (last ++ a.words ++ more) :: tail)] := by
  refine ⟨⟨?_, ?_⟩, ?_, fun hs => h.resolved_collect hi hc hs w, ?_⟩
  · rintro ⟨e, he⟩
    cases hs : c.startsUnsupported with
    | true => rfl
    | false =>
        have hok := h.resolved_collect hi hc hs w
        rw [Drafted.resolved, he] at hok
        cases hok
  · intro hs
    obtain ⟨d, hd⟩ := h.draftLine_refused hi hc hs w
    exact ⟨.listIndex, by rw [hd]⟩
  · intro hs out
    obtain ⟨d, hd⟩ := h.draftLine_refused hi hc hs w
    rw [draftLine] at hd
    rw [runLine, runWith, hd]
    rfl
  · intro before d after a hsplit hne hb hs ha
    have hnamed : ∀ b ∈ before, ∃ name rest, b.Named name rest := by
      intro b hmem
      obtain ⟨hcall, hplain⟩ := h.isCall hi hc (x := b) (by simp [hsplit, hmem])
      exact hcall.exists_named hplain (hb b hmem)
    have hfirst : c.startsUnsupported = false := by
      apply Tree.startsUnsupported_of_startsWithName
      obtain ⟨b, bs, rfl⟩ := List.exists_cons_of_ne_nil hne
      rw [(List.cons.inj hsplit).1]
      exact hb b (by simp)
    have hlen : ¬ (c :: cs).length = 1 := by
      have hpos := List.length_pos_of_ne_nil hne
      rw [hsplit, List.length_append, List.length_cons]
      omega
    obtain ⟨hcall, hplain⟩ := h.isCall hi hc (x := d) (by simp [hsplit])
    obtain ⟨hwords, rows, last, more, tail, hlast, hcollect⟩ :=
      Tree.collect_unsupported hne hnamed (hcall.start hplain) hs ha after
    refine ⟨hwords, rows, last, more, tail, hlast, ?_⟩
    rw [h.resolved_collect hi hc hfirst, if_neg hlen, hsplit, hcollect]

/-- A program that is no application is refused as the first, and as the second its words become
arguments of the first. -/
theorem unsupported_drafted_echo :
    (∀ out, runLine "foo b ; echo a".toList out World.bare =
        (out, World.bare, some .notParsed)) ∧
      (draftLine "echo a ; foo b".toList World.bare).resolved =
        .ok [(.sequence, [["echo".toList, "a".toList, "foo".toList, "b".toList]])] := by
  have hfoo : Clear "foo b ; echo a".toList := ⟨by decide +kernel, by decide +kernel⟩
  have hecho : Clear "echo a ; foo b".toList := ⟨by decide +kernel, by decide +kernel⟩
  have hsplit : ∀ xs : List Tree, xs ≠ [] → xs = xs.headD (.node .call []) :: xs.tail := by
    intro xs hne
    obtain ⟨x, xs, rfl⟩ := List.exists_cons_of_ne_nil hne
    rfl
  have hrefused := unsupported_drafted hfoo (hsplit _ (by decide +kernel)) (by decide +kernel)
    World.bare
  have hrun := unsupported_drafted hecho (hsplit _ (by decide +kernel)) (by decide +kernel)
    World.bare
  refine ⟨hrefused.2.1 (by decide +kernel), (hrun.2.2.1 (by decide +kernel)).trans ?_⟩
  decide +kernel

end CommandShell
