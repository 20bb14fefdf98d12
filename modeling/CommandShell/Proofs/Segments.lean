import CommandShell.Proofs.WrittenLines

/-! # Segments of arguments

An argument is made of segments that stand right beside each other, some of them between quotes. A
text between double quotes is one word with the bare texts beside it. Every other segment is a word
of its own, and one between single quotes keeps its quotes. -/

namespace CommandShell

open Parse Grammar Spelling CommandShell.Tree

/-- Characters at which a word ends that is written as it is. -/
def separators : List Char :=
  [' ', '\t', '\r', '\n', Text.singleQuote, Text.doubleQuote, Text.backQuote, ';', '|', '<', '>']

/-- Characters that cannot stand between single quotes. -/
def unquotable : List Char := [Text.singleQuote, '\r', '\n']

/-- Characters that cannot stand between double quotes, or are run there. -/
def undoublable : List Char := [Text.doubleQuote, Text.backQuote, '\r', '\n']

/-- Characters that cannot stand between back quotes. -/
def unrunnable : List Char := [Text.backQuote, '\r', '\n']

namespace Kind

/-- The characters of a kind, where they can be listed. -/
def charsOf : Kind → List Char
  | .semicolon => [';']
  | .bar => ['|']
  | .less => ['<']
  | .greater => ['>']
  | .singleMark => [Text.singleQuote]
  | .doubleMark => [Text.doubleQuote]
  | .backMark => [Text.backQuote]
  | .blank => [' ', '\t']
  | .lineBreak => ['\r', '\n']
  | .finish | .word => []

theorem mem_charsOf (c : Char) : ofChar c = .word ∨ c ∈ charsOf (ofChar c) := by
  have hc := holds_ofChar c
  generalize ofChar c = k at hc ⊢
  cases k with
  | word => exact Or.inl rfl
  | finish => cases hc
  | _ => exact Or.inr (by simpa [charsOf, Holds] using hc)

/-- Without the characters of the other kinds, a character is of one of the kinds. -/
theorem ofChar_mem {ls : List Kind} {excluded : List Char} (hw : .word ∈ ls)
    (hls : ∀ k, k ∈ ls ∨ (charsOf k).all excluded.contains = true) {c : Char}
    (h : c ∉ excluded) : ofChar c ∈ ls := by
  rcases mem_charsOf c with hword | hc
  · exact hword ▸ hw
  · rcases hls (ofChar c) with hmem | hall
    · exact hmem
    · exact absurd (List.contains_iff_mem.mp (List.all_eq_true.mp hall c hc)) h

theorem ofChar_of_notMem_separators {c : Char} (h : c ∉ separators) : ofChar c = .word :=
  List.mem_singleton.mp (ofChar_mem (by decide) (fun k => by cases k <;> decide) h)

theorem ofChar_of_notMem_unquotable {c : Char} (h : c ∉ unquotable) : ofChar c ∈ singleKinds :=
  ofChar_mem (by decide) (fun k => by cases k <;> decide) h

theorem ofChar_of_notMem_undoublable {c : Char} (h : c ∉ undoublable) : ofChar c ∈ doubleKinds :=
  ofChar_mem (by decide) (fun k => by cases k <;> decide) h

theorem ofChar_of_notMem_unrunnable {c : Char} (h : c ∉ unrunnable) : ofChar c ∈ backKinds :=
  ofChar_mem (by decide) (fun k => by cases k <;> decide) h

end Kind

theorem notMem_of_all {t excluded : List Char} (h : t.all (fun c => !excluded.contains c) = true) :
    ∀ c ∈ t, c ∉ excluded := by
  intro c hc
  have hnot := List.all_eq_true.mp h c hc
  simpa using hnot

/-! ### Pieces one after another -/

namespace Parse

/-- Pieces of an argument, each of which is read as its tree before what follows. -/
inductive Pieces : List Token → List Tree → Prop
  | nil : Pieces [] []
  | cons {taken left : List Token} {t : Tree} {kids : List Tree}
      (first : ∀ ks, kindAt (kindsOf taken ++ ks) 0 ∈ starts .argument)
      (builds : ∀ rest, Beyond rest → ∀ level todo,
        Builds .argument level (piece :: todo) taken (left ++ rest) [t] todo)
      (more : Pieces left kids) : Pieces (taken ++ left) (t :: kids)

theorem Pieces.builds_again {ts rest : List Token} {kids : List Tree} (h : Pieces ts kids)
    (hrest : Beyond rest) (level : Nat) :
    Builds .argument level [.again .one [piece]] ts rest kids [] := by
  induction h with
  | nil => exact builds_no_piece hrest
  | @cons taken left t kids first builds _ ih =>
      have hfirst : kindAt (kindsOf (taken ++ left ++ rest)) 0 ∈ firstAll [piece] := by
        rw [List.append_assoc, kindsOf_append, mem_firstAll_piece]
        exact first _
      have hturn : Turns .argument level [.again .one [piece]] (kindsOf (taken ++ left ++ rest))
          ([piece] ++ [.again .one [piece]]) :=
        turns_round (Or.inr rfl) (enters_of_mem rfl hfirst)
      exact hturn.builds ((builds rest hrest level _).trans ih)

/-- Pieces of which there is one at least are an argument. -/
theorem Pieces.reads {ts : List Token} {kids : List Tree} (h : Pieces ts kids) (hne : kids ≠ []) :
    Reads .argument ts kids := by
  intro rest hrest
  cases h with
  | nil => exact absurd rfl hne
  | cons first builds more => exact (builds rest hrest 0 _).trans (more.builds_again hrest 0)

end Parse

theorem textAll_leaves (ts : List Token) :
    textAll (ts.map .leaf) = (ts.map Token.text).flatten := by
  rw [textAll_eq_flatMap, List.flatMap_map, List.flatMap_def]
  rfl

@[simp] theorem textAll_ofText (t : Text) : textAll ((Token.ofText t).map .leaf) = t := by
  rw [textAll_leaves, Token.texts_ofText]

/-! ### Words and quotations -/

section Quotations

/-- The token of a mark. -/
def markOf (c : Char) : Token := Token.ofRun (Kind.ofChar c, [c])

/-- What is written around a text between marks. -/
def around (c : Char) (before t after : Text) : Text := before ++ c :: (t ++ c :: after)

/-- The leaves of a text between marks. -/
def leavesAround (c : Char) (before t after : Text) : List Tree :=
  (Token.ofText before).map .leaf ++ (.leaf (markOf c) :: ((Token.ofText t).map .leaf ++
    (.leaf (markOf c) :: (Token.ofText after).map .leaf)))

theorem textAll_leavesAround (c : Char) (before t after : Text) :
    textAll (leavesAround c before t after) = around c before t after := by
  have hmark : (Tree.leaf (markOf c)).text = [c] := rfl
  simp [leavesAround, around, textAll_append, hmark]

theorem ofText_around {c : Char} (hc : (Kind.ofChar c).isRun = false) (before t after : Text) :
    Token.ofText (around c before t after) =
      Token.ofText before ++
        (markOf c :: (Token.ofText t ++ (markOf c :: Token.ofText after))) := by
  rw [around, Token.ofText_append_mark hc, Token.ofText_append_mark hc]
  rfl

theorem around_eq (c : Char) (before t after : Text) :
    around c before t after = before ++ (around c [] t [] ++ after) := by
  simp [around]

theorem ofText_around_eq {c : Char} (hc : (Kind.ofChar c).isRun = false) (before t after : Text) :
    Token.ofText (around c before t after) =
      Token.ofText before ++ (Token.ofText (around c [] t []) ++ Token.ofText after) := by
  simp [ofText_around hc]

/-- A text without separators is a word, or nothing. -/
theorem areWords_bare {t : Text} (h : ∀ c ∈ t, c ∉ separators) :
    AreWords (Token.ofText t) ∧ (Token.ofText t).length ≤ 1 := by
  have hkind : ∀ c ∈ t, Kind.ofChar c = .word := fun c hc =>
    Kind.ofChar_of_notMem_separators (h c hc)
  constructor
  · exact Token.kind_of_mem_ofText fun c hc => List.mem_singleton.mpr (hkind c hc)
  · by_cases hne : t = []
    · simp [hne, Token.ofText, Token.runs]
    · simp [Token.ofText_word hne hkind]

variable {before t after : Text} {rest : List Token} {level : Nat} {todo : List Item}

/-- An argument can start with what is written around a text. -/
theorem kindAt_around {c : Char} (hc : (Kind.ofChar c).isRun = false)
    (hs : Kind.ofChar c ∈ starts .argument) (hb : ∀ c ∈ before, c ∉ separators) (ks : List Kind) :
    kindAt (kindsOf (Token.ofText (around c before t after)) ++ ks) 0 ∈ starts .argument := by
  rw [ofText_around hc]
  cases hwords : Token.ofText before with
  | nil => exact hs
  | cons u us =>
      have hword : u.kind = .word := by
        have hall := (areWords_bare hb).1 u (by rw [hwords]; simp)
        exact List.mem_singleton.mp hall
      change u.kind ∈ _
      rw [hword]
      decide

theorem builds_double (hb : ∀ c ∈ before, c ∉ separators) (ht : ∀ c ∈ t, c ∉ undoublable)
    (ha : ∀ c ∈ after, c ∉ separators) (hk : kindAt (kindsOf rest) 0 ≠ .word) :
    Builds .argument level (piece :: todo)
      (Token.ofText (around Text.doubleQuote before t after)) rest
      [.node .quoted [.node .doubleQuoted (leavesAround Text.doubleQuote before t after)]]
      todo := by
  have hquote : Quote .doubleMark doubleKinds (markOf Text.doubleQuote) (Token.ofText t)
      (markOf Text.doubleQuote) :=
    ⟨rfl, Token.kind_of_mem_ofText fun c hc => Kind.ofChar_of_notMem_undoublable (ht c hc), rfl⟩
  rw [ofText_around rfl]
  exact builds_piece_doubleQuoted (areWords_bare hb).1 (areWords_bare hb).2 hquote
    (areWords_bare ha).1 hk

theorem builds_back (hb : ∀ c ∈ before, c ∉ separators) (ht : ∀ c ∈ t, c ∉ unrunnable)
    (ha : ∀ c ∈ after, c ∉ separators) (hk : kindAt (kindsOf rest) 0 ≠ .word) :
    Builds .argument level (piece :: todo)
      (Token.ofText (around Text.backQuote before t after)) rest
      [.node .quoted [.node .backQuoted (leavesAround Text.backQuote before t after)]] todo := by
  have hquote : Quote .backMark backKinds (markOf Text.backQuote) (Token.ofText t)
      (markOf Text.backQuote) :=
    ⟨rfl, Token.kind_of_mem_ofText fun c hc => Kind.ofChar_of_notMem_unrunnable (ht c hc), rfl⟩
  rw [ofText_around rfl]
  exact builds_piece_backQuoted (areWords_bare hb).1 (areWords_bare hb).2 hquote
    (areWords_bare ha).1 hk

theorem builds_single (ht : ∀ c ∈ t, c ∉ unquotable) :
    Builds .argument level (piece :: todo)
      (Token.ofText (around Text.singleQuote [] t [])) rest
      [.node .quoted [.node .singleQuoted (leavesAround Text.singleQuote [] t [])]] todo := by
  have hquote : Quote .singleMark singleKinds (markOf Text.singleQuote) (Token.ofText t)
      (markOf Text.singleQuote) :=
    ⟨rfl, Token.kind_of_mem_ofText fun c hc => Kind.ofChar_of_notMem_unquotable (ht c hc), rfl⟩
  rw [ofText_around rfl]
  exact builds_piece_single hquote

theorem builds_bare (hne : t ≠ []) (ht : ∀ c ∈ t, c ∉ separators)
    (hk : kindAt (kindsOf rest) 0 ≠ .doubleMark ∧ kindAt (kindsOf rest) 0 ≠ .backMark) :
    Builds .argument level (piece :: todo) (Token.ofText t) rest
      [.node .unquoted ((Token.ofText t).map .leaf)] todo := by
  rw [Token.ofText_word hne fun c hc => Kind.ofChar_of_notMem_separators (ht c hc)]
  exact builds_piece_word rfl hk

end Quotations

/-! ### Segments -/

/-- A segment of an argument: a text as it is, or between quotes. -/
inductive Segment where
  | bare (t : Text) (nonempty : t ≠ []) (chars : ∀ c ∈ t, c ∉ separators)
  | single (t : Text) (chars : ∀ c ∈ t, c ∉ unquotable)
  | double (t : Text) (chars : ∀ c ∈ t, c ∉ undoublable)

namespace Segment

def content : Segment → Text
  | bare t _ _ => t
  | single t _ => t
  | double t _ => t

def written : Segment → Text
  | bare t _ _ => t
  | single t _ => around Text.singleQuote [] t []
  | double t _ => around Text.doubleQuote [] t []

def isBare : Segment → Bool
  | bare _ _ _ => true
  | _ => false

def isSingle : Segment → Bool
  | single _ _ => true
  | _ => false

def isDouble : Segment → Bool
  | double _ _ => true
  | _ => false

/-- The words of segments. A text between double quotes takes the bare texts beside it, the one
behind it also where that stands before another such text. -/
def words : List Segment → List Text
  | [] => []
  | single t _ :: rest => around Text.singleQuote [] t [] :: words rest
  | bare b _ _ :: double t _ :: bare a _ _ :: rest => (b ++ (t ++ a)) :: words rest
  | bare b _ _ :: double t _ :: rest => (b ++ t) :: words rest
  | bare b _ _ :: rest => b :: words rest
  | double t _ :: bare a _ _ :: rest => (t ++ a) :: words rest
  | double t _ :: rest => t :: words rest

/-- Two bare texts beside each other would be one. -/
def Apart (p q : Segment) : Prop := ¬ (p.isBare = true ∧ q.isBare = true)

def tokens (p : Segment) : List Token := Token.ofText p.written

/-- The kind of the first token of a segment. -/
def kind : Segment → Kind
  | bare _ _ _ => .word
  | single _ _ => .singleMark
  | double _ _ => .doubleMark

theorem tokens_bare {t : Text} (hne : t ≠ []) (h : ∀ c ∈ t, c ∉ separators) :
    tokens (bare t hne h) = [Token.ofRun (.word, t)] :=
  Token.ofText_word hne fun c hc => Kind.ofChar_of_notMem_separators (h c hc)

theorem kindAt_tokens (p : Segment) (ks : List Kind) :
    kindAt (kindsOf p.tokens ++ ks) 0 = p.kind := by
  cases p with
  | bare t hne h =>
      rw [tokens_bare]
      rfl
  | single t h =>
      rw [tokens, written, ofText_around rfl]
      rfl
  | double t h =>
      rw [tokens, written, ofText_around rfl]
      rfl

/-- The kind of the first token of segments that are followed by what is no segment of them. -/
theorem kindAt_segments {k : Kind} (hk : k ∈ starts .argument) {ps : List Segment}
    (h : ∀ p ∈ ps.head?, p.kind ≠ k) {rest : List Token} (hrest : Beyond rest) :
    kindAt (kindsOf (ps.flatMap tokens ++ rest)) 0 ≠ k := by
  cases ps with
  | nil =>
      intro hkind
      exact hrest (hkind ▸ hk)
  | cons p ps =>
      rw [List.flatMap_cons, List.append_assoc, kindsOf_append, kindAt_tokens]
      exact h p rfl

theorem written_ne_nil (p : Segment) : p.written ≠ [] := by
  cases p with
  | bare t hne h => exact hne
  | single t h => exact List.cons_ne_nil _ _
  | double t h => exact List.cons_ne_nil _ _

/-- A segment starts and ends with a character of its kind. -/
theorem kind_ends (p : Segment) : (∀ c ∈ p.written.head?, Kind.ofChar c = p.kind) ∧
    ∀ c ∈ p.written.getLast?, Kind.ofChar c = p.kind := by
  have hmarks : ∀ (m : Char) (t : Text), (∀ c ∈ (around m [] t []).head?, c = m) ∧
      ∀ c ∈ (around m [] t []).getLast?, c = m := by
    intro m t
    constructor
    · intro c hc
      exact (Option.some.inj hc).symm
    · intro c hc
      rw [around, List.nil_append, ← List.cons_append, List.getLast?_concat] at hc
      exact (Option.some.inj hc).symm
  cases p with
  | bare t hne h =>
      have hword : ∀ c ∈ t, Kind.ofChar c = .word := fun c hc =>
        Kind.ofChar_of_notMem_separators (h c hc)
      exact ⟨fun c hc => hword c (List.mem_of_mem_head? hc),
        fun c hc => hword c (List.mem_of_getLast? hc)⟩
  | single t h =>
      exact ⟨fun c hc => (hmarks _ t).1 c hc ▸ rfl, fun c hc => (hmarks _ t).2 c hc ▸ rfl⟩
  | double t h =>
      exact ⟨fun c hc => (hmarks _ t).1 c hc ▸ rfl, fun c hc => (hmarks _ t).2 c hc ▸ rfl⟩

theorem Apart.kinds {p q : Segment} (h : Apart p q) : Token.Apart p.kind q.kind := by
  rintro ⟨hsame, hrun⟩
  cases q with
  | bare t hne ht =>
      cases p with
      | bare u hne' hu => exact h ⟨rfl, rfl⟩
      | single u hu => cases hsame
      | double u hu => cases hsame
  | single t ht => cases hrun
  | double t ht => cases hrun

/-- Segments are scanned one by one. -/
theorem ofText_segments {ps : List Segment} (h : ps.IsChain Apart) :
    Token.ofText (ps.flatMap written) = ps.flatMap tokens := by
  induction ps with
  | nil => rfl
  | cons p ps ih =>
      rw [List.flatMap_cons, List.flatMap_cons, Token.ofText_append, ih h.tail]
      · rfl
      · intro x hx y hy
        cases ps with
        | nil => cases hy
        | cons q qs =>
            rw [List.flatMap_cons, List.head?_append_of_ne_nil _ q.written_ne_nil] at hy
            rw [p.kind_ends.2 x hx, q.kind_ends.1 y hy]
            exact (List.isChain_cons_cons.mp h).1.kinds

theorem solid_written (p : Segment) : Solid p.written := by
  have hblank : p.kind ≠ .blank := by cases p <;> exact nofun
  exact ⟨p.written_ne_nil, fun c hc => p.kind_ends.1 c hc ▸ hblank,
    fun c hc => p.kind_ends.2 c hc ▸ hblank⟩

theorem solid_segments {ps : List Segment} (hne : ps ≠ []) : Solid (ps.flatMap written) := by
  induction ps with
  | nil => exact absurd rfl hne
  | cons p ps ih =>
      rw [List.flatMap_cons]
      cases ps with
      | nil => simpa using p.solid_written
      | cons q qs => exact p.solid_written.append (ih (List.cons_ne_nil q qs))

/-! ### Words of segments -/

/-- Tokens of an argument that come to words. -/
def Parted (ts : List Token) (written : Text) (ws : List Text) : Prop :=
  ∃ kids, Pieces ts kids ∧ textAll kids = written ∧
    deedsAll kids = ws.map fun t => Deed.note (.word t)

theorem Parted.cons {taken word written : Text} {left : List Token} {t : Tree} {ws : List Text}
    (first : ∀ ks, kindAt (kindsOf (Token.ofText taken) ++ ks) 0 ∈ starts .argument)
    (builds : ∀ rest, Beyond rest → ∀ level todo,
      Builds .argument level (piece :: todo) (Token.ofText taken) (left ++ rest) [t] todo)
    (htext : t.text = taken) (hdeeds : t.deeds = [.note (.word word)])
    (h : Parted left written ws) :
    Parted (Token.ofText taken ++ left) (taken ++ written) (word :: ws) := by
  obtain ⟨kids, hpieces, hwritten, hwords⟩ := h
  refine ⟨t :: kids, .cons first builds hpieces, ?_, ?_⟩
  · rw [textAll_cons, htext, hwritten]
  · rw [deedsAll_cons, hdeeds, hwords]
    rfl

section Steps

variable {before t after written : Text} {left : List Token} {ws : List Text}

theorem filter_around (hb : ∀ c ∈ before, c ∉ separators) (ht : ∀ c ∈ t, c ∉ undoublable)
    (ha : ∀ c ∈ after, c ∉ separators) :
    (around Text.doubleQuote before t after).contains Text.backQuote = false ∧
      (around Text.doubleQuote before t after).filter (· ≠ Text.doubleQuote) =
        before ++ (t ++ after) := by
  have hseparators : ∀ {u : Text}, (∀ c ∈ u, c ∉ separators) →
      Text.backQuote ∉ u ∧ u.filter (· ≠ Text.doubleQuote) = u := by
    intro u hu
    refine ⟨fun hmem => hu _ hmem (by decide), List.filter_eq_self.mpr ?_⟩
    intro c hc
    simpa using fun heq : c = Text.doubleQuote => hu c hc (by rw [heq]; decide)
  have hinner : Text.backQuote ∉ t ∧ t.filter (· ≠ Text.doubleQuote) = t := by
    refine ⟨fun hmem => ht _ hmem (by decide), List.filter_eq_self.mpr ?_⟩
    intro c hc
    simpa using fun heq : c = Text.doubleQuote => ht c hc (by rw [heq]; decide)
  have hmarks : Text.backQuote ≠ Text.doubleQuote := by decide
  constructor
  · simp [around, (hseparators hb).1, (hseparators ha).1, hinner.1, hmarks]
  · simp only [around, List.filter_append, (hseparators hb).2, (hseparators ha).2, hinner.2,
      List.filter_cons, ne_eq, not_true, decide_false, Bool.false_eq_true, if_false]

/-- A text between double quotes with the bare texts beside it. -/
theorem Parted.double (hb : ∀ c ∈ before, c ∉ separators) (ht : ∀ c ∈ t, c ∉ undoublable)
    (ha : ∀ c ∈ after, c ∉ separators)
    (hk : ∀ rest, Beyond rest → kindAt (kindsOf (left ++ rest)) 0 ≠ .word)
    (h : Parted left written ws) :
    Parted (Token.ofText before ++
        (Token.ofText (around Text.doubleQuote [] t []) ++ (Token.ofText after ++ left)))
      (before ++ (around Text.doubleQuote [] t [] ++ (after ++ written)))
      ((before ++ (t ++ after)) :: ws) := by
  obtain ⟨hback, hfilter⟩ := filter_around hb ht ha
  have hpiece : Parted (Token.ofText (around Text.doubleQuote before t after) ++ left)
      (around Text.doubleQuote before t after ++ written) ((before ++ (t ++ after)) :: ws) := by
    refine h.cons (kindAt_around rfl (by decide) hb)
      (fun rest hrest level todo => builds_double hb ht ha (hk rest hrest)) ?_ ?_
    · rw [text_node, textAll_cons, text_node, textAll_leavesAround]
      simp
    · rw [deeds_quoted, deedsAll_cons, deeds_doubleQuoted, textAll_leavesAround, hback, hfilter]
      rfl
  rw [ofText_around_eq rfl, around_eq _ before t after] at hpiece
  simpa only [List.append_assoc] using hpiece

theorem Parted.single (ht : ∀ c ∈ t, c ∉ unquotable) (h : Parted left written ws) :
    Parted (Token.ofText (around Text.singleQuote [] t []) ++ left)
      (around Text.singleQuote [] t [] ++ written)
      (around Text.singleQuote [] t [] :: ws) := by
  refine h.cons ?_ (fun rest _ level todo => builds_single ht) ?_ ?_
  · intro ks
    rw [ofText_around rfl]
    exact (by decide : Kind.singleMark ∈ starts .argument)
  · rw [text_node, textAll_cons, text_node, textAll_leavesAround]
    simp
  · rw [deeds_quoted, deedsAll_cons, deeds_singleQuoted, textAll_leavesAround]
    rfl

theorem Parted.bare (hne : t ≠ []) (ht : ∀ c ∈ t, c ∉ separators)
    (hk : ∀ rest, Beyond rest → kindAt (kindsOf (left ++ rest)) 0 ≠ .doubleMark ∧
      kindAt (kindsOf (left ++ rest)) 0 ≠ .backMark)
    (h : Parted left written ws) : Parted (Token.ofText t ++ left) (t ++ written) (t :: ws) := by
  refine h.cons ?_ (fun rest hrest level todo => builds_bare hne ht (hk rest hrest)) ?_ ?_
  · intro ks
    rw [Token.ofText_word hne fun c hc => Kind.ofChar_of_notMem_separators (ht c hc)]
    exact (by decide : Kind.word ∈ starts .argument)
  · rw [text_node, textAll_ofText]
  · rw [deeds_unquoted, textAll_ofText]

end Steps

theorem nil_chars {excluded : List Char} : ∀ c ∈ ([] : Text), c ∉ excluded := nofun

/-- No bare text follows a bare text. -/
theorem isBare_after_bare {t : Text} {hne : t ≠ []} {ht : ∀ c ∈ t, c ∉ separators}
    {ps : List Segment} (h : (bare t hne ht :: ps).IsChain Apart) :
    ∀ p ∈ ps.head?, p.isBare = false := by
  intro p hp
  have hapart : ¬ (true = true ∧ p.isBare = true) := (List.isChain_cons.mp h).1 p hp
  simpa using hapart

theorem isBare_of_no_bare {ps : List Segment}
    (h : ∀ t hne ht rest, ps = bare t hne ht :: rest → False) :
    ∀ p ∈ ps.head?, p.isBare = false := by
  intro p hp
  obtain ⟨qs, rfl⟩ := List.head?_eq_some_iff.mp hp
  cases p with
  | bare u hu hus => exact (h u hu hus qs rfl).elim
  | single u hus => rfl
  | double u hus => rfl

theorem kindAt_no_bare {ps : List Segment} (h : ∀ p ∈ ps.head?, p.isBare = false) :
    ∀ rest, Beyond rest → kindAt (kindsOf (ps.flatMap tokens ++ rest)) 0 ≠ .word := by
  intro rest hrest
  refine kindAt_segments (by decide) ?_ hrest
  intro p hp hword
  have hbare := h p hp
  cases p with
  | bare u hu hus => cases hbare
  | single u hus => cases hword
  | double u hus => cases hword

/-- Segments come to their words. -/
theorem parted_words {ps : List Segment} (h : ps.IsChain Apart) :
    Parted (ps.flatMap tokens) (ps.flatMap written) (words ps) := by
  fun_induction words ps with
  | case1 => exact ⟨[], .nil, rfl, rfl⟩
  | case2 t ht rest ih => exact (ih h.tail).single ht
  | case3 b hb hbs t ht a ha has rest ih =>
      have hgo := (ih h.tail.tail.tail).double hbs ht has
        (kindAt_no_bare (isBare_after_bare h.tail.tail))
      simpa [tokens, written] using hgo
  | case4 b hb hbs t ht rest hnot ih =>
      have hgo := (ih h.tail.tail).double hbs ht nil_chars (kindAt_no_bare (isBare_of_no_bare hnot))
      simpa [tokens, written] using hgo
  | case5 b hb hbs rest hnot hnot' ih =>
      -- A bare text is a word of its own unless a mark follows that takes it in.
      refine (ih h.tail).bare hb hbs fun rest hrest => ⟨?_, ?_⟩
      · refine kindAt_segments (by decide) ?_ hrest
        intro p hp hdouble
        obtain ⟨qs, rfl⟩ := List.head?_eq_some_iff.mp hp
        cases p with
        | bare u hu hus => cases hdouble
        | single u hus => cases hdouble
        | double u hus => exact hnot' u hus qs rfl
      · refine kindAt_segments (by decide) ?_ hrest
        intro p _ hback
        cases p <;> cases hback
  | case6 t ht a ha has rest ih =>
      have hgo := (ih h.tail.tail).double nil_chars ht has
        (kindAt_no_bare (isBare_after_bare h.tail))
      simpa [tokens, written] using hgo
  | case7 t ht rest hnot ih =>
      have hgo := (ih h.tail).double nil_chars ht nil_chars
        (kindAt_no_bare (isBare_of_no_bare hnot))
      simpa [tokens, written] using hgo

theorem stretch_tokens (p : Segment) : Stretch (kindsOf p.tokens) := by
  cases p with
  | bare t hne h =>
      rw [tokens_bare]
      exact .word
  | single t h =>
      have hkinds : ∀ k ∈ kindsOf (Token.ofText t), k ∈ singleKinds :=
        List.forall_mem_map.mpr (Token.kind_of_mem_ofText fun c hc =>
          Kind.ofChar_of_notMem_unquotable (h c hc))
      rw [tokens, written, ofText_around rfl, Token.ofText_nil, List.nil_append, kindsOf_cons,
        kindsOf_append]
      exact .single hkinds
  | double t h =>
      have hkinds : ∀ q ∈ (kindsOf (Token.ofText t)).map ([·]), Inner q := by
        refine List.forall_mem_map.mpr (List.forall_mem_map.mpr fun u hu => .plain ?_)
        exact Token.kind_of_mem_ofText (fun c hc => Kind.ofChar_of_notMem_undoublable (h c hc)) u hu
      have hstretch := Stretch.double hkinds
      rw [← List.flatMap_def, List.flatMap_singleton'] at hstretch
      rw [tokens, written, ofText_around rfl, Token.ofText_nil, List.nil_append, kindsOf_cons,
        kindsOf_append]
      exact hstretch

/-- Segments beside each other are read as one argument. -/
theorem readAs_segments {ps : List Segment} (hne : ps ≠ []) (h : ps.IsChain Apart) :
    ReadAs (ps.flatMap written) ((words ps).map fun t => .note (.word t)) where
  toSolid := solid_segments hne
  spelled := by
    rw [ofText_segments h, List.flatMap_def, kindsOf_flatten, List.map_map]
    refine .stretches (by simpa using hne) (List.forall_mem_map.mpr ?_)
    exact fun p _ => p.stretch_tokens
  reads := by
    obtain ⟨kids, hpieces, htext, hdeeds⟩ := parted_words h
    rw [ofText_segments h]
    refine ⟨kids, hpieces.reads ?_, htext, hdeeds⟩
    rintro rfl
    exact (solid_segments hne).nonempty htext.symm

/-- A bare text is read as it is. -/
theorem readAs_bare {t : Text} (hne : t ≠ []) (h : ∀ c ∈ t, c ∉ separators) :
    ReadAs t [.note (.word t)] := by
  have hread := readAs_segments (List.cons_ne_nil (.bare t hne h) []) (List.isChain_singleton _)
  rwa [List.flatMap_singleton] at hread

theorem readAs_name {name : Text} (h : Application.isName name = true) :
    ReadAs name [.note (.word name)] := by
  have hmarks : separators.all (fun c => Kind.ofChar c ≠ .word) = true := by decide
  have hchars : ∀ c ∈ name, c ∉ separators := fun c hc hmem =>
    of_decide_eq_true (List.all_eq_true.mp hmarks c hmem) (Application.ofChar_of_isName h c hc)
  refine readAs_bare ?_ hchars
  rintro rfl
  cases h

end Segment

end CommandShell
