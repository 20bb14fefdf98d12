import CommandShell.Proofs.Filters
import CommandShell.Proofs.Segments

/-! # What applications are given for compound arguments

An application is given one word for an argument of several segments only if the segments are a text
between double quotes and bare texts beside it. A word that has a single quote in it loses its
first and last character, also where the quote comes from between double quotes. -/

namespace CommandShell

namespace Command

/-- Run the application that a word names on some arguments. -/
def runOn (word : Value) (args : List Value) (w : World) : Effect :=
  match application word with
  | .error e => .failed [] w e
  | .ok (a, guarded) =>
      match a.arguments args with
      | .error e => .failed [] w e
      | .ok args => if guarded then (a.exec args w).guarded else a.exec args w

theorem runRow_cons (word : Value) (words input : List Value) (w : World) :
    runRow (word :: words) input w = runOn word (callArguments words input) w := rfl

/-- A word without double quotes is given as it is if there is no single quote in it, or if it is
just two of them. -/
theorem unquote_text_eq_iff {t : Text} (h : Text.doubleQuote ∉ t) :
    unquote (.text t) = .text t ↔
      Text.singleQuote ∉ t ∨ t = [Text.singleQuote, Text.singleQuote] := by
  by_cases hq : Text.singleQuote ∈ t
  · have hshort : t.tail.dropLast ≠ t := by
      intro heq
      have hlength := congrArg List.length heq
      have hpos := List.length_pos_of_mem hq
      rw [List.length_dropLast, List.length_tail] at hlength
      omega
    by_cases htwo : t = [Text.singleQuote, Text.singleQuote]
    · subst htwo
      simp [unquote, Value.isText]
    · simp [unquote, Value.has, Value.isText, Value.inner, hq, htwo, hshort]
  · simp [unquote, Value.has, hq, h]

end Command

namespace Segment

theorem words_eq_nil {ps : List Segment} : words ps = [] ↔ ps = [] := by
  fun_cases words ps with
  | case1 => simp
  | _ => simp

/-- Segments that come to one word are one segment, or a text between double quotes with bare texts
beside it. -/
theorem of_words_eq {ps : List Segment} {t : Text} (h : words ps = [t]) :
    (ps.length = 1 ∧ ps.countP isDouble = 0) ∨
      (ps.countP isDouble = 1 ∧ ps.countP isSingle = 0 ∧ t = ps.flatMap content) := by
  revert h
  fun_cases words ps with
  | case1 => exact nofun
  | case2 u hu rest =>
      intro h
      obtain ⟨-, hrest⟩ := List.cons.inj h
      obtain rfl := words_eq_nil.mp hrest
      exact Or.inl ⟨rfl, rfl⟩
  | case5 u hu hus rest hnot =>
      intro h
      obtain ⟨-, hrest⟩ := List.cons.inj h
      obtain rfl := words_eq_nil.mp hrest
      exact Or.inl ⟨rfl, rfl⟩
  | _ =>
      intro h
      obtain ⟨rfl, hrest⟩ := List.cons.inj h
      obtain rfl := words_eq_nil.mp hrest
      exact Or.inr ⟨rfl, rfl, by simp [content]⟩

/-- Without texts between quotes, segments that start with no bare text are none. -/
theorem eq_nil_of_countP {ps : List Segment} (hd : ps.countP isDouble = 0)
    (hs : ps.countP isSingle = 0) (h : ∀ p ∈ ps.head?, p.isBare = false) : ps = [] := by
  cases ps with
  | nil => rfl
  | cons p ps =>
      cases p with
      | bare t hne ht => cases h _ rfl
      | single t ht => simp [isSingle] at hs
      | double t ht => simp [isDouble] at hd

/-- Segments with just one text between quotes, and that between double quotes, come to one word. -/
theorem words_eq {ps : List Segment} (h : ps.IsChain Apart) (hd : ps.countP isDouble = 1)
    (hs : ps.countP isSingle = 0) : words ps = [ps.flatMap content] := by
  revert h hd hs
  fun_cases words ps with
  | case1 => exact nofun
  | case2 u hu rest =>
      intro _ _ hs
      simp [isSingle] at hs
  | case3 b hb hbs t ht a ha has rest =>
      intro h hd hs
      simp only [List.countP_cons, isDouble, isSingle, Bool.false_eq_true, if_false,
        if_true] at hd hs
      obtain rfl := eq_nil_of_countP (by omega) (by omega) (isBare_after_bare h.tail.tail)
      simp [words, content]
  | case4 b hb hbs t ht rest hnot =>
      intro h hd hs
      simp only [List.countP_cons, isDouble, isSingle, Bool.false_eq_true, if_false,
        if_true] at hd hs
      obtain rfl := eq_nil_of_countP (by omega) (by omega) (isBare_of_no_bare hnot)
      simp [words, content]
  | case5 b hb hbs rest hnot hnot' =>
      intro h hd hs
      -- What follows the bare text is neither bare nor between quotes.
      cases rest with
      | nil => simp [isDouble] at hd
      | cons p qs =>
          have hbare := isBare_after_bare h p rfl
          cases p with
          | bare u hu hus => cases hbare
          | single u hus => simp [isSingle] at hs
          | double u hus => exact (hnot' u hus qs rfl).elim
  | case6 t ht a ha has rest =>
      intro h hd hs
      simp only [List.countP_cons, isDouble, isSingle, Bool.false_eq_true, if_false,
        if_true] at hd hs
      obtain rfl := eq_nil_of_countP (by omega) (by omega) (isBare_after_bare h.tail)
      simp [words, content]
  | case7 t ht rest hnot =>
      intro h hd hs
      simp only [List.countP_cons, isDouble, isSingle, Bool.false_eq_true, if_false,
        if_true] at hd hs
      obtain rfl := eq_nil_of_countP (by omega) (by omega) (isBare_of_no_bare hnot)
      simp [words, content]

/-- What a segment adds to a word: only double quotes are left out. -/
def noted : Segment → Text
  | bare t _ _ => t
  | single t _ => around Text.singleQuote [] t []
  | double t _ => t

theorem flatten_words (ps : List Segment) : (words ps).flatten = ps.flatMap noted := by
  fun_induction words ps with
  | case1 => rfl
  | case2 t ht rest ih => rw [List.flatten_cons, ih, List.flatMap_cons, noted]
  | case3 b hb hbs t ht a ha has rest ih => simp [ih, noted]
  | case4 b hb hbs t ht rest hnot ih => simp [ih, noted]
  | case5 b hb hbs rest hnot hnot' ih => rw [List.flatten_cons, ih, List.flatMap_cons, noted]
  | case6 t ht a ha has rest ih => simp [ih, noted]
  | case7 t ht rest hnot ih => rw [List.flatten_cons, ih, List.flatMap_cons, noted]

theorem star_notMem_words {ps : List Segment} (h : ∀ p ∈ ps, '*' ∉ p.content) :
    ∀ t ∈ words ps, '*' ∉ t := by
  intro t ht hstar
  have hmem : '*' ∈ (words ps).flatten := List.mem_flatten.mpr ⟨t, ht, hstar⟩
  rw [flatten_words] at hmem
  obtain ⟨p, hp, hnoted⟩ := List.mem_flatMap.mp hmem
  have hquote : '*' ≠ Text.singleQuote := by decide
  apply h p hp
  cases p with
  | bare t hne ht => exact hnoted
  | single t ht => simpa [noted, content, around, hquote] using hnoted
  | double t ht => exact hnoted

theorem doubleQuote_notMem_content {p : Segment} (h : p.isSingle = false) :
    Text.doubleQuote ∉ p.content := by
  intro hmem
  cases p with
  | bare t hne ht => exact ht _ hmem (by decide)
  | single t ht => cases h
  | double t ht => exact ht _ hmem (by decide)

end Segment

/-- An argument made of segments. A star in it would stand for names of files. -/
structure Compound where
  segments : List Segment
  nonempty : segments ≠ []
  apart : segments.IsChain Segment.Apart
  noStar : ∀ p ∈ segments, '*' ∉ p.content

namespace Compound

def written (x : Compound) : Text := x.segments.flatMap Segment.written

/-- What is written, without the quotes around segments. -/
def content (x : Compound) : Text := x.segments.flatMap Segment.content

/-- What an application is given for the argument. -/
def received (x : Compound) : List Value :=
  (Segment.words x.segments).map fun t => Command.unquote (.text t)

/-- Several segments, or a text between double quotes. -/
def Composite (x : Compound) : Prop := 2 ≤ x.segments.length ∨ ∃ p ∈ x.segments, p.isDouble = true

theorem doubleQuote_notMem {x : Compound} (h : x.segments.countP Segment.isSingle = 0) :
    Text.doubleQuote ∉ x.content := by
  intro hmem
  obtain ⟨p, hp, hmem⟩ := List.mem_flatMap.mp hmem
  have hsingle : p.isSingle = false := by simpa using List.countP_eq_zero.mp h p hp
  exact Segment.doubleQuote_notMem_content hsingle hmem

/-- When the application is given a composite argument as one word and as it is meant. -/
theorem received_eq_iff {x : Compound} (h : x.Composite) :
    x.received = [.text x.content] ↔
      x.segments.countP Segment.isDouble = 1 ∧ x.segments.countP Segment.isSingle = 0 ∧
        (Text.singleQuote ∉ x.content ∨ x.content = [Text.singleQuote, Text.singleQuote]) := by
  constructor
  · intro hreceived
    obtain ⟨t, hwords, hunquote⟩ := List.map_eq_singleton_iff.mp hreceived
    rcases Segment.of_words_eq hwords with ⟨hlength, hdouble⟩ | ⟨hdouble, hsingle, rfl⟩
    · -- One segment that is not between double quotes is not composite.
      rcases h with htwo | ⟨p, hp, hp'⟩
      · omega
      · exact absurd hp' (List.countP_eq_zero.mp hdouble p hp)
    · exact ⟨hdouble, hsingle,
        (Command.unquote_text_eq_iff (doubleQuote_notMem hsingle)).mp hunquote⟩
  · rintro ⟨hdouble, hsingle, hquotes⟩
    have hunquote := (Command.unquote_text_eq_iff (doubleQuote_notMem hsingle)).mpr hquotes
    rw [received, Segment.words_eq x.apart hdouble hsingle, List.map_singleton]
    exact congrArg ([·]) hunquote

end Compound

/-- A line runs its application on what is received for its arguments, one argument after another. A
composite argument is received as one word without the quotes around its segments if and only if it
has just one text between double quotes, none between single quotes, and no single quote in it, two
of them and nothing else apart. -/
theorem runLine_compound {name : Text} (h : Application.isName name = true) (xs : List Compound)
    (out : List Value) (w : World) :
    runLine (name ++ following (xs.map Compound.written)) out w =
        behind out (Command.runOn (.text name) (xs.flatMap Compound.received) w).running ∧
      ∀ x ∈ xs, x.Composite →
        (x.received = [.text x.content] ↔
          x.segments.countP Segment.isDouble = 1 ∧ x.segments.countP Segment.isSingle = 0 ∧
            (Text.singleQuote ∉ x.content ∨
              x.content = [Text.singleQuote, Text.singleQuote])) := by
  refine ⟨?_, fun x _ => Compound.received_eq_iff⟩
  have hreads : ∀ y ∈ xs.map fun x => (x.written, Segment.words x.segments),
      ReadAs y.1 (y.2.map fun t => .note (.word t)) :=
    List.forall_mem_map.mpr fun x _ => Segment.readAs_segments x.nonempty x.apart
  have hstars : ∀ t ∈ name :: xs.flatMap (fun x => Segment.words x.segments), '*' ∉ t := by
    refine List.forall_mem_cons.mpr ⟨noStar_of_isName h, fun t ht => ?_⟩
    obtain ⟨x, _, ht⟩ := List.mem_flatMap.mp ht
    exact Segment.star_notMem_words x.noStar t ht
  have hvalues : ∀ v ∈ (name :: xs.flatMap (fun x => Segment.words x.segments)).map Value.text,
      v.has '*' = false := by
    refine List.forall_mem_map.mpr fun t ht => ?_
    simpa [Value.has] using hstars t ht
  have hkept := Command.expandRow_of_plain hvalues w
  have hwords : (xs.map fun x => (x.written, Segment.words x.segments)).flatMap Prod.snd =
      xs.flatMap fun x => Segment.words x.segments := List.flatMap_map _ _ _
  have hargs : Command.callArguments ((xs.flatMap fun x => Segment.words x.segments).map .text) [] =
      xs.flatMap Compound.received := by
    rw [Command.callArguments, List.map_map, List.map_flatMap]
    rfl
  have hline := runLine_words h (Segment.readAs_name h) hreads (by rw [hwords]; rfl) hkept out
  rw [List.map_map] at hline
  rw [← hargs, ← Command.runRow_cons]
  exact hline

namespace Compound

/-- A bare text before one between single quotes. -/
def bareSingle : Compound where
  segments := [.bare ['a'] (by decide) (notMem_of_all (by decide)),
    .single ['b'] (notMem_of_all (by decide))]
  nonempty := by simp
  apart := by simp [Segment.Apart, Segment.isBare]
  noStar := by simp [Segment.content]

/-- A single quote between double quotes. -/
def apostrophe : Compound where
  segments := [.double "it's".toList (notMem_of_all (by decide))]
  nonempty := by simp
  apart := List.isChain_singleton _
  noStar := by simp [Segment.content]

/-- Bare texts on both sides of one between double quotes. -/
def embraced : Compound where
  segments := [.bare ['x'] (by decide) (notMem_of_all (by decide)),
    .double "y z".toList (notMem_of_all (by decide)),
    .bare ['x'] (by decide) (notMem_of_all (by decide))]
  nonempty := by simp
  apart := by simp [Segment.Apart, Segment.isBare]
  noStar := by simp [Segment.content]

end Compound

/-- One argument is received as two words, one loses characters, and one is received as meant. -/
theorem runLine_compound_echo :
    runLine "echo a'b' \"it's\" x\"y z\"x".toList [] World.bare =
        ([.text "a ".toList, .text "b ".toList, .text "t' ".toList, .text "xy zx ".toList],
          World.bare, none) ∧
      Compound.bareSingle.received ≠ [.text Compound.bareSingle.content] ∧
      Compound.apostrophe.received ≠ [.text Compound.apostrophe.content] ∧
      Compound.embraced.received = [.text Compound.embraced.content] := by
  have hname : Application.isName "echo".toList = true := by decide
  obtain ⟨hline, hreceived⟩ :=
    runLine_compound hname [.bareSingle, .apostrophe, .embraced] [] World.bare
  refine ⟨hline, ?_, ?_, ?_⟩
  · rw [ne_eq, hreceived .bareSingle (by simp) (Or.inl (by decide))]
    decide
  · rw [ne_eq, hreceived .apostrophe (by simp) (Or.inr ⟨_, List.mem_singleton_self _, rfl⟩)]
    decide
  · rw [hreceived .embraced (by simp) (Or.inl (by decide))]
    decide

end CommandShell
