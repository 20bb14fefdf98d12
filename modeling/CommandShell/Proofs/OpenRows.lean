import CommandShell.Proofs.Walking

/-! # When there is a row for a word

While a line is drafted there are three phases. At first there is no row. Then there are rows and
words go to the last of them. A pipe takes the rows that were opened for it with it, and from then
on words have no place to go. Which phase comes next depends only on the notes that open rows or
need one, so it can be said of notes whatever the operators of their redirections are. -/

namespace CommandShell

namespace Note

/-- Does a note open a row if one more is expected? -/
def opens : Note → Bool
  | .redirection _ => true
  | .argument t => Application.isName t
  | _ => false

def isWord : Note → Bool
  | .word _ => true
  | _ => false

/-- A note that opens a row or needs one. -/
def decides (n : Note) : Bool := n.opens || n.isWord

/-- A note without the operator of its redirection. -/
def unsigned : Note → Note
  | .redirection _ => .redirection []
  | n => n

theorem opens_unsigned (n : Note) : n.unsigned.opens = n.opens := by cases n <;> rfl

theorem isWord_unsigned (n : Note) : n.unsigned.isWord = n.isWord := by cases n <;> rfl

/-- The same notes but for the operators of redirections. -/
def Alike (ns ms : List Note) : Prop := ns.map unsigned = ms.map unsigned

theorem Alike.append {ns ms ns' ms' : List Note} (h : Alike ns ms) (h' : Alike ns' ms') :
    Alike (ns ++ ns') (ms ++ ms') := by
  rw [Alike, List.map_append, List.map_append, h, h']

theorem Alike.cons {ns ms : List Note} (n : Note) (h : Alike ns ms) :
    Alike (n :: ns) (n :: ms) := by
  rw [Alike, List.map_cons, List.map_cons, h]

theorem Alike.any_eq {p : Note → Bool} (hp : ∀ n : Note, p n.unsigned = p n) {ns ms : List Note}
    (h : Alike ns ms) : ns.any p = ms.any p := by
  have hall : ∀ xs : List Note, xs.any p = (xs.map unsigned).any p := by
    intro xs
    simp [List.any_map, Function.comp_def, hp]
  rw [hall ns, hall ms, h]

/-- The first note that decides is of the same sort. -/
theorem Alike.find_decides {ns ms : List Note} (h : Alike ns ms) {m : Note}
    (hm : ms.find? decides = some m) : ∃ n, ns.find? decides = some n ∧ n.opens = m.opens := by
  have hall : ∀ xs : List Note, (xs.map unsigned).find? decides =
      (xs.find? decides).map unsigned := by
    intro xs
    have hsame : decides ∘ unsigned = decides := by
      funext n
      simp [decides, opens_unsigned, isWord_unsigned]
    rw [List.find?_map, hsame]
  have heq : (ns.find? decides).map unsigned = some m.unsigned := by
    rw [← hall ns, h, hall ms, hm, Option.map_some]
  obtain ⟨n, hn, hunsigned⟩ := Option.map_eq_some_iff.mp heq
  exact ⟨n, hn, by rw [← opens_unsigned n, hunsigned, opens_unsigned]⟩

/-- Notes that are like notes that start with a call or a pipe start with it too. -/
theorem Alike.exists_cons {ns ms : List Note} (h : Alike ns (.expected :: ms)) :
    ∃ ns', ns = .expected :: ns' := by
  cases ns with
  | nil => cases h
  | cons n ns =>
      have hn : n.unsigned = .expected := (List.cons.inj h).1
      cases n with
      | expected => exact ⟨ns, rfl⟩
      | redirection | argument | word => cases hn

end Note

namespace Draft

variable {d : Draft} {ns : List Note}

/-! ### While there are rows -/

/-- There are rows, and words go to the last of them. -/
structure Ready (d : Draft) : Prop where
  position : d.position + 1 = d.tree.length
  tree : d.tree ≠ []
  sequences : d.tree.length ≤ d.sequences

/-- What following notes makes of a draft that is ready. Rows are opened if and only if a note opens
one, as long as more rows are expected than there are. -/
structure Extends (ns : List Note) (d d' : Draft) : Prop where
  ready : d'.Ready
  queue : d'.queue = d.queue
  tree : d.tree.length ≤ d'.tree.length
  kept : ns.any Note.opens = false →
    d'.tree.length = d.tree.length ∧ d.sequences ≤ d'.sequences
  grown : d.tree.length < d.sequences → ns.any Note.opens = true →
    d.tree.length < d'.tree.length

theorem Extends.cons {n : Note} {d₁ d' : Draft} (h : Extends [n] d d₁) (h' : Extends ns d₁ d') :
    Extends (n :: ns) d d' := by
  have hone : [n].any Note.opens = n.opens := by simp
  have hall : (n :: ns).any Note.opens = (n.opens || ns.any Note.opens) := List.any_cons
  refine ⟨h'.ready, h'.queue.trans h.queue, h.tree.trans h'.tree, ?_, ?_⟩
  · intro hnone
    obtain ⟨hn, hns⟩ := Bool.or_eq_false_iff.mp (hall ▸ hnone)
    obtain ⟨htree, hsequences⟩ := h.kept (hone ▸ hn)
    obtain ⟨htree', hsequences'⟩ := h'.kept hns
    exact ⟨htree'.trans htree, hsequences.trans hsequences'⟩
  · intro hspare hsome
    cases hn : n.opens with
    | true => exact Nat.lt_of_lt_of_le (h.grown hspare (hone ▸ hn)) h'.tree
    | false =>
        obtain ⟨htree, hsequences⟩ := h.kept (hone ▸ hn)
        rw [hall, hn, Bool.false_or] at hsome
        have hgrown := h'.grown (by omega) hsome
        omega

theorem Ready.expectRow (h : d.Ready) : d.expectRow.Ready :=
  ⟨h.position, h.tree, Nat.le_succ_of_le h.sequences⟩

theorem length_openRow (d : Draft) (words : List Text) :
    (d.openRow words).tree.length = d.tree.length + 1 := by simp [openRow]

theorem Ready.openRow (h : d.Ready) (hs : d.tree.length < d.sequences) (words : List Text) :
    (d.openRow words).Ready := by
  have hposition := h.position
  have hlength := length_openRow d words
  refine ⟨?_, by simp [Draft.openRow], by rw [hlength]; exact hs⟩
  change d.position + 1 + 1 = _
  omega

theorem Ready.addWord? (h : d.Ready) (t : Text) :
    ∃ i, d.addWord? t = some { d with rows := d.rows.modify i (· ++ [t]) } := by
  have hposition := h.position
  have hpos := List.length_pos_of_ne_nil h.tree
  have hlt : d.position.toNat < d.tree.length := by omega
  refine ⟨d.tree[d.position.toNat], ?_⟩
  rw [Draft.addWord?, currentRow?, if_pos (by omega), List.getElem?_eq_getElem hlt]
  rfl

theorem Ready.note (h : d.Ready) (n : Note) : ∃ d', d.note n = .ok d' ∧ Extends [n] d d' := by
  cases n with
  | expected =>
      exact ⟨_, rfl, h.expectRow, rfl, Nat.le_refl _, fun _ => ⟨rfl, Nat.le_succ _⟩,
        fun _ hopens => (by cases hopens)⟩
  | redirection sign =>
      have hlength : (d.expectRow.openRow [sign]).tree.length = d.tree.length + 1 :=
        length_openRow d.expectRow [sign]
      refine ⟨_, rfl, h.expectRow.openRow (Nat.lt_succ_of_le h.sequences) _, rfl, by omega,
        fun hnone => (by cases hnone), fun _ _ => by omega⟩
  | argument t =>
      have hopens : [Note.argument t].any Note.opens = Application.isName t := by simp [Note.opens]
      rw [Draft.note]
      split
      · next hname =>
          obtain ⟨hname, hne⟩ := Bool.and_eq_true_iff.mp hname
          have hlt : d.tree.length < d.sequences :=
            Nat.lt_of_le_of_ne h.sequences (of_decide_eq_true hne)
          have hlength := length_openRow d []
          refine ⟨_, rfl, h.openRow hlt [], rfl, by omega, ?_, fun _ _ => by omega⟩
          rw [hopens, hname]
          intro hnone
          cases hnone
      · next hname =>
          refine ⟨d, rfl, h, rfl, Nat.le_refl _, fun _ => ⟨rfl, Nat.le_refl _⟩, ?_⟩
          intro hlt hsome
          exact absurd (Bool.and_eq_true_iff.mpr
            ⟨hopens ▸ hsome, decide_eq_true (Nat.ne_of_lt hlt)⟩) hname
  | word t =>
      obtain ⟨i, hi⟩ := h.addWord? t
      rw [Draft.note, hi]
      exact ⟨_, rfl, ⟨h.position, h.tree, h.sequences⟩, rfl, Nat.le_refl _,
        fun _ => ⟨rfl, Nat.le_refl _⟩, fun _ hsome => (by cases hsome)⟩

theorem Ready.follow (h : d.Ready) (ns : List Note) :
    ∃ d', follow ns d = .ok d' ∧ Extends ns d d' := by
  induction ns generalizing d with
  | nil =>
      exact ⟨d, rfl, h, rfl, Nat.le_refl _, fun _ => ⟨rfl, Nat.le_refl _⟩,
        fun _ hsome => (by cases hsome)⟩
  | cons n ns ih =>
      obtain ⟨d₁, hd₁, hfirst⟩ := h.note n
      obtain ⟨d', hd', hrest⟩ := ih hfirst.ready
      refine ⟨d', ?_, hfirst.cons hrest⟩
      rw [Draft.follow, hd₁]
      exact hd'

/-! ### When the rows have gone -/

/-- Words would go behind the last row. -/
def Stranded (d : Draft) : Prop := (d.tree.length : Int) ≤ d.position

theorem Stranded.openRow (h : d.Stranded) (words : List Text) : (d.openRow words).Stranded := by
  have hlength := length_openRow d words
  have hle : (d.tree.length : Int) ≤ d.position := h
  change ((d.openRow words).tree.length : Int) ≤ d.position + 1
  omega

/-- A word finds no row, and no other note makes a row that it would find. -/
theorem Stranded.note (h : d.Stranded) (n : Note) :
    (n.isWord = true → d.note n = .error d) ∧
      (n.isWord = false → ∃ d', d.note n = .ok d' ∧ d'.Stranded) := by
  have hle : (d.tree.length : Int) ≤ d.position := h
  cases n with
  | expected => exact ⟨fun hw => (by cases hw), fun _ => ⟨_, rfl, h⟩⟩
  | redirection sign =>
      have hexpected : d.expectRow.Stranded := h
      exact ⟨fun hw => (by cases hw), fun _ => ⟨_, rfl, hexpected.openRow [sign]⟩⟩
  | argument t =>
      refine ⟨fun hw => (by cases hw), fun _ => ⟨_, rfl, ?_⟩⟩
      split
      · exact h.openRow []
      · exact h
  | word t =>
      have hrow : d.currentRow? = none := by
        rw [currentRow?, if_pos (by omega), List.getElem?_eq_none (by omega)]
      refine ⟨fun _ => ?_, fun hw => (by cases hw)⟩
      rw [Draft.note, addWord?, hrow]
      rfl

theorem Stranded.follow (h : d.Stranded) (hw : ns.any Note.isWord = true) :
    ∃ d', follow ns d = .error d' := by
  induction ns generalizing d with
  | nil => cases hw
  | cons n ns ih =>
      cases hn : n.isWord with
      | true =>
          refine ⟨d, ?_⟩
          rw [Draft.follow, (h.note n).1 hn]
          rfl
      | false =>
          obtain ⟨d₁, hd₁, hstranded⟩ := (h.note n).2 hn
          obtain ⟨d', hd'⟩ := ih hstranded (by simpa [hn] using hw)
          refine ⟨d', ?_⟩
          rw [Draft.follow, hd₁]
          exact hd'

/-! ### Before there are rows -/

/-- A draft without rows. -/
def bare (sequences : Nat) : Draft := { Draft.empty with sequences := sequences }

theorem ready_openRow_bare {s : Nat} (hs : 0 < s) (words : List Text) :
    ((bare s).openRow words).Ready :=
  ⟨rfl, by simp [bare, openRow], hs⟩

/-- The first note that opens a row or needs one decides whether there is a row for the words. -/
theorem follow_bare {s : Nat} (hs : 0 < s) {n : Note} (hn : ns.find? Note.decides = some n) :
    (n.opens = true → ∃ d, follow ns (bare s) = .ok d ∧ d.Ready) ∧
      (n.opens = false → ∃ d, follow ns (bare s) = .error d) := by
  induction ns generalizing s with
  | nil => cases hn
  | cons m ns ih =>
      cases m with
      | expected => exact ih (Nat.succ_pos s) hn
      | redirection sign =>
          obtain rfl := Option.some.inj hn
          obtain ⟨d, hd, hextends⟩ := (ready_openRow_bare (Nat.succ_pos s) [sign]).follow ns
          exact ⟨fun _ => ⟨d, hd, hextends.ready⟩, fun hopens => (by cases hopens)⟩
      | argument t =>
          rw [Draft.follow, Draft.note]
          cases hname : Application.isName t with
          | true =>
              have hm : n = .argument t := by simpa [Note.decides, Note.opens, hname] using hn.symm
              have hlt : (true && (bare s).tree.length ≠ (bare s).sequences) = true := by
                simp [bare, Draft.empty, Nat.ne_of_lt hs]
              obtain ⟨d, hd, hextends⟩ := (ready_openRow_bare hs []).follow ns
              rw [if_pos hlt]
              refine ⟨fun _ => ⟨d, hd, hextends.ready⟩, fun hopens => ?_⟩
              rw [hm, Note.opens, hname] at hopens
              cases hopens
          | false =>
              have hskip : ns.find? Note.decides = some n := by
                simpa [Note.decides, Note.opens, Note.isWord, hname] using hn
              exact ih hs hskip
      | word t =>
          obtain rfl := Option.some.inj hn
          exact ⟨fun hopens => (by cases hopens), fun _ => ⟨bare s, rfl⟩⟩

/-! ### From one item to the next -/

/-- The draft after notes that are those of a pipe or of a call. -/
def itemWith (pipe : Bool) (ns : List Note) (d : Draft) : Except Draft Draft :=
  if pipe then do
    let d' ← follow ns d.expectRow
    return d'.closePipe d.tree.length
  else follow ns d

/-- A draft after an item: a pipe is met, and if it has opened rows they have gone. -/
structure After (pipe : Bool) (ns : List Note) (d : Draft) : Prop where
  stranded : (pipe && ns.any Note.opens) = true → d.Stranded
  ready : (pipe && ns.any Note.opens) = false → d.Ready
  queue : pipe = true → d.queue ≠ []

theorem closePipe_queue_ne_nil (d : Draft) (start : Nat) : (d.closePipe start).queue ≠ [] :=
  List.cons_ne_nil _ _

theorem Ready.itemWith (h : d.Ready) (pipe : Bool) (ns : List Note) :
    ∃ d', d.itemWith pipe ns = .ok d' ∧ After pipe ns d' := by
  cases pipe with
  | false =>
      obtain ⟨d', hd', hextends⟩ := h.follow ns
      exact ⟨d', hd', fun hp => (by cases hp), fun _ => hextends.ready, fun hp => (by cases hp)⟩
  | true =>
      obtain ⟨d', hd', hextends⟩ := h.expectRow.follow ns
      have hposition := hextends.ready.position
      have hle : d.tree.length ≤ d'.tree.length := hextends.tree
      have hlength : (d'.closePipe d.tree.length).tree.length = d.tree.length := by
        simp [closePipe, hle]
      refine ⟨d'.closePipe d.tree.length, ?_, ?_, ?_, fun _ => closePipe_queue_ne_nil _ _⟩
      · rw [Draft.itemWith, if_pos rfl, hd']
        rfl
      · intro hopens
        have hlt : d.tree.length < d'.tree.length :=
          hextends.grown (Nat.lt_succ_of_le h.sequences) hopens
        change ((d'.closePipe d.tree.length).tree.length : Int) ≤ d'.position
        omega
      · intro hnone
        obtain ⟨hsame, hsequences⟩ := hextends.kept hnone
        change d'.tree.length = d.tree.length at hsame
        have htree := List.length_pos_of_ne_nil h.tree
        refine ⟨?_, List.ne_nil_of_length_pos (by omega), ?_⟩
        · change d'.position + 1 = _
          omega
        · rw [hlength]
          exact (Nat.le_succ_of_le h.sequences).trans hsequences

theorem Stranded.itemWith (h : d.Stranded) (pipe : Bool) (hw : ns.any Note.isWord = true) :
    ∃ d', d.itemWith pipe ns = .error d' := by
  cases pipe with
  | false => exact h.follow hw
  | true =>
      have hexpected : d.expectRow.Stranded := h
      obtain ⟨d', hd'⟩ := hexpected.follow hw
      refine ⟨d', ?_⟩
      rw [Draft.itemWith, if_pos rfl, hd']
      rfl

/-- The first item of a line. -/
theorem itemWith_empty (pipe : Bool) {n : Note}
    (hn : (.expected :: ns).find? Note.decides = some n) :
    (n.opens = true → ∃ d, Draft.empty.itemWith pipe (.expected :: ns) = .ok d ∧
        After pipe (.expected :: ns) d) ∧
      (n.opens = false → ∃ d, Draft.empty.itemWith pipe (.expected :: ns) = .error d) := by
  have hfind : ns.find? Note.decides = some n := hn
  have hsome : n.opens = true → (.expected :: ns : List Note).any Note.opens = true :=
    fun hopens => List.any_eq_true.mpr ⟨n, List.mem_of_find?_eq_some hn, hopens⟩
  cases pipe with
  | false =>
      obtain ⟨hgood, hbad⟩ := follow_bare (Nat.succ_pos 0) hfind
      refine ⟨fun hopens => ?_, hbad⟩
      obtain ⟨d, hd, hready⟩ := hgood hopens
      exact ⟨d, hd, fun hp => (by cases hp), fun _ => hready, fun hp => (by cases hp)⟩
  | true =>
      obtain ⟨hgood, hbad⟩ := follow_bare (Nat.succ_pos 1) hfind
      have hitem : Draft.empty.itemWith true (.expected :: ns) =
          (do let d ← Draft.follow ns (bare 2); return d.closePipe 0) := rfl
      rw [hitem]
      constructor
      · intro hopens
        obtain ⟨d, hd, hready⟩ := hgood hopens
        have hposition := hready.position
        have hpos := List.length_pos_of_ne_nil hready.tree
        refine ⟨d.closePipe 0, by rw [hd]; rfl, fun _ => ?_, fun hnone => ?_,
          fun _ => closePipe_queue_ne_nil _ _⟩
        · change (0 : Int) ≤ d.position
          omega
        · rw [hsome hopens] at hnone
          cases hnone
      · intro hopens
        obtain ⟨d, hd⟩ := hbad hopens
        exact ⟨d, by rw [hd]; rfl⟩

theorem Ready.closeSequence (h : d.Ready) : d.closeSequence.Ready := by
  obtain ⟨queue, hclosed⟩ := d.exists_closeSequence
  rw [hclosed]
  exact ⟨h.position, h.tree, h.sequences⟩

theorem Stranded.closeSequence (h : d.Stranded) : d.closeSequence.Stranded := by
  obtain ⟨queue, hclosed⟩ := d.exists_closeSequence
  rw [hclosed]
  exact h

theorem closeSequence_queue_ne_nil (d : Draft) : d.closeSequence.queue ≠ [] := by
  unfold Draft.closeSequence
  split
  · next hany =>
      intro hnil
      rw [hnil] at hany
      cases hany
  · exact List.cons_ne_nil _ _

end Draft

end CommandShell
