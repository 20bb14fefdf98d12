import CommandShell.Proofs.Filters
import CommandShell.Proofs.Segments

/-! # Words reach applications as they are

A word without characters that mean something in a line can be written as it is, and almost any
other word can be written between single quotes. Such words are read as one argument each, whatever
is in them, and the application is given them without the quotes. -/

namespace CommandShell

/-- A word and how it is written in a line. A star in it would stand for names of files. -/
structure WrittenWord where
  text : Text
  quoted : Bool
  nonempty : text ≠ []
  noStar : '*' ∉ text
  chars : ∀ c ∈ text, c ∉ (if quoted then unquotable else separators)

namespace WrittenWord

def written (x : WrittenWord) : Text :=
  if x.quoted then Text.singleQuote :: (x.text ++ [Text.singleQuote]) else x.text

/-- Words after the first, each with a blank before it. -/
def following (xs : List WrittenWord) : Text := xs.flatMap fun x => ' ' :: x.written

variable {x : WrittenWord}

theorem written_bare (h : x.quoted = false) : x.written = x.text := by simp [written, h]

theorem chars_bare (h : x.quoted = false) : ∀ c ∈ x.text, c ∉ separators := by
  intro c hc
  have hchars := x.chars c hc
  rwa [h] at hchars

theorem written_quoted (h : x.quoted = true) :
    x.written = Text.singleQuote :: (x.text ++ [Text.singleQuote]) := by simp [written, h]

theorem chars_quoted (h : x.quoted = true) : ∀ c ∈ x.text, c ∉ unquotable := by
  intro c hc
  have hchars := x.chars c hc
  rwa [h] at hchars

/-- A word is read as one argument. -/
theorem readAs_written (x : WrittenWord) : ReadAs x.written [.note (.word x.written)] := by
  cases h : x.quoted with
  | false =>
      rw [written_bare h]
      exact Segment.readAs_bare x.nonempty (chars_bare h)
  | true =>
      have hread := Segment.readAs_segments (List.cons_ne_nil (.single x.text (chars_quoted h)) [])
        (List.isChain_singleton _)
      rw [List.flatMap_singleton] at hread
      rw [written_quoted h]
      exact hread

/-! ### Words as given to applications -/

theorem unquote_written (x : WrittenWord) :
    Command.unquote (.text x.written) = .text x.text := by
  cases h : x.quoted with
  | false =>
      have hnot : ∀ c ∈ separators, (Value.text x.text).has c = false := by
        intro c hc
        rw [Value.has, List.contains_eq_mem, decide_eq_false_iff_not]
        intro hmem
        exact chars_bare h c hmem hc
      rw [written_bare h, Command.unquote, hnot _ (by decide), hnot _ (by decide)]
      rfl
  | true =>
      have hhas : (Value.text x.written).has Text.singleQuote = true := by
        simp [Value.has, written_quoted h]
      have htwo : (Value.text x.written).isText [Text.singleQuote, Text.singleQuote] = false := by
        simp [Value.isText, written_quoted h, x.nonempty]
      rw [Command.unquote, hhas, htwo, written_quoted h]
      simp [Value.inner]

theorem noStar_written (x : WrittenWord) : (Value.text x.written).has '*' = false := by
  have hquote : '*' ≠ Text.singleQuote := by decide
  rw [Value.has, List.contains_eq_mem, decide_eq_false_iff_not]
  cases h : x.quoted with
  | false =>
      rw [written_bare h]
      exact x.noStar
  | true =>
      rw [written_quoted h]
      simp [hquote, x.noStar]

theorem callArguments_written (xs : List WrittenWord) :
    Command.callArguments (xs.map fun x => .text x.written) [] = xs.map fun x => .text x.text := by
  rw [Command.callArguments, List.map_map]
  exact List.map_congr_left fun x _ => x.unquote_written

/-- A line of words runs the application of its first word on the others as they are. -/
theorem runLine_written {x : WrittenWord} (hx : Application.isName x.written = true)
    (xs : List WrittenWord) {w : World}
    (hf : (Command.runRow ((x :: xs).map fun y => .text y.written) [] w).fault = none)
    (out : List Value) :
    runLine (x.written ++ following xs) out w =
      (out ++ (Command.runRow ((x :: xs).map fun y => .text y.written) [] w).added,
        (Command.runRow ((x :: xs).map fun y => .text y.written) [] w).world, none) := by
  have hreads : ∀ y ∈ xs.map fun y => (y.written, [y.written]),
      ReadAs y.1 (y.2.map fun t => .note (.word t)) :=
    List.forall_mem_map.mpr fun y _ => y.readAs_written
  have hstars : ∀ v ∈ (x :: xs).map fun y => Value.text y.written, v.has '*' = false :=
    List.forall_mem_map.mpr fun y _ => y.noStar_written
  have hrow : (x :: xs).map (fun y => Value.text y.written) = .text x.written ::
      ((xs.map fun y => (y.written, [y.written])).flatMap Prod.snd).map .text := by
    rw [List.flatMap_map, List.map_flatMap, List.map_cons, List.map_eq_flatMap]
    rfl
  have hline := runLine_words hx x.readAs_written hreads hrow
    (Command.expandRow_of_plain hstars w) out
  have hfollowing : CommandShell.following ((xs.map fun y => (y.written, [y.written])).map
      Prod.fst) = following xs := by
    simp [CommandShell.following, following, List.flatMap_map]
  rw [hfollowing] at hline
  rw [hline, Effect.running, hf]
  rfl

end WrittenWord

def WrittenWord.echo : WrittenWord := ⟨"echo".toList, false, by decide, by decide, notMem_of_all (by decide)⟩

/-- The line that gives words to `echo`. -/
def echoLine (words : List WrittenWord) : Text := "echo".toList ++ WrittenWord.following words

theorem runEcho_texts (texts : List Text) (w : World) :
    Application.runEcho (texts.map .text) w =
      ⟨texts.map fun t => .text (t ++ [' ']), texts.map .text, w, none⟩ := by
  rw [Application.runEcho, Yield.each_eq_flatMap]
  · rw [Effect.ofYield, List.flatMap_map,
      List.map_eq_flatMap (f := fun t => Value.text (t ++ [' ']))]
  · rw [List.forall_mem_map]
    exact fun t _ => rfl

theorem runRow_echo (words : List WrittenWord) (w : World) :
    Command.runRow (.text "echo".toList :: words.map fun y => .text y.written) [] w =
      ⟨words.map fun x => .text (x.text ++ [' ']), words.map fun x => .text x.text, w, none⟩ := by
  have happlication : Command.application (.text "echo".toList) = .ok (.echo, false) := rfl
  have htexts := runEcho_texts (words.map WrittenWord.text) w
  rw [List.map_map, List.map_map] at htexts
  simp only [Command.runRow, happlication, WrittenWord.callArguments_written]
  exact htexts

/-- Words reach `echo` as they are, also with blanks, operators, other quotes or back quotes between
their quotes, and nothing else happens. -/
theorem runLine_echoLine (words : List WrittenWord) (out : List Value) (w : World) :
    runLine (echoLine words) out w =
      (out ++ words.map fun x => .text (x.text ++ [' ']), w, none) := by
  have hrow : Command.runRow ((WrittenWord.echo :: words).map fun y => .text y.written) [] w = _ :=
    runRow_echo words w
  have hline := WrittenWord.runLine_written (x := .echo) (by decide) words
    (congrArg Effect.fault hrow) out
  rw [hrow] at hline
  exact hline

/-- Operators, back quotes and the name of an application among the words. -/
theorem runLine_echoLine_operators :
    runLine "echo cat 'a; `pwd` > \"b'".toList [] World.bare =
      ([.text "cat ".toList, .text "a; `pwd` > \"b ".toList], World.bare, none) :=
  runLine_echoLine [⟨"cat".toList, false, by decide, by decide, notMem_of_all (by decide)⟩,
    ⟨"a; `pwd` > \"b".toList, true, by decide, by decide, notMem_of_all (by decide)⟩] [] World.bare

end CommandShell
