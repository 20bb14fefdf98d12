import CommandShell.Proofs.AddedCounts
import CommandShell.Proofs.PositionLists
import CommandShell.Proofs.Segments

/-! # The first lines and the last

The first `a` lines of a file and of these the last `b` are a slice of the file, whichever of the
numbers is the greater and also if there are fewer lines. The first lines and all others, taken
with two calls, are the whole file. Numbers are written in decimal; they are read if they have not
more digits than the limit. -/

namespace CommandShell

/-! ### Numbers as they are written -/

namespace Text

variable {n : Nat} {c : Char} {t : Text}

/-- A text that is a number in decimal, perhaps with zeros before it. -/
structure Decimal (n : Nat) (t : Text) : Prop where
  nonempty : t ≠ []
  digits : ∀ c ∈ t, c.isDigit = true
  value : Nat.ofDigitChars 10 t 0 = n

theorem decimal_ofNat (n : Nat) : Decimal n (ofNat n) where
  nonempty := Nat.toDigits_ne_nil
  digits := fun _ hc => Nat.isDigit_of_mem_toDigits (by decide) (by decide) hc
  value := Nat.ofDigitChars_toDigits (by decide) (by decide)

theorem lt_length_ofNat_pow {k : Nat} (hk : 0 < k) : k < (ofNat (Nat.pow 10 k)).length :=
  Nat.lt_of_not_le fun hle =>
    Nat.lt_irrefl _ ((Nat.length_toDigits_le_iff (by decide) hk).mp hle)

/-- What holds of the ten digits. -/
theorem of_isDigit {p : Char → Prop} (hp : ∀ d < 10, p (Nat.digitChar d)) (h : c.isDigit = true) :
    p c := by
  obtain ⟨hlt, heq⟩ := Application.Position.digitChar_sub h
  exact heq ▸ hp _ hlt

theorem digit?_eq (h : c.isDigit = true) : digit? c = some (c.toNat - 48) :=
  of_isDigit (p := fun c => digit? c = some (c.toNat - 48)) (by decide) h

theorem isDigit_of_ascii (h : c.isDigit = true) : isDigit c = true := by
  rw [isDigit, digit?_eq h, Option.isSome_some]

theorem isIntegerBlank_digit (h : c.isDigit = true) : isIntegerBlank c = false :=
  of_isDigit (p := fun c => isIntegerBlank c = false) (by decide) h

theorem wellSpaced'_digits (h : ∀ c ∈ t, c.isDigit = true) : wellSpaced.wellSpaced' t = true := by
  fun_induction wellSpaced.wellSpaced' t with
  | case1 => rfl
  | case2 c => exact isDigit_of_ascii (h c List.mem_cons_self)
  | case3 c d cs hc ih => exact ih fun x hx => h x (List.mem_cons_of_mem c hx)
  | case4 c d cs hc ih => exact absurd (isDigit_of_ascii (h c List.mem_cons_self)) hc

theorem numeralValue_digits (h : ∀ c ∈ t, c.isDigit = true) :
    numeralValue t = Nat.ofDigitChars 10 t 0 := by
  have hdigits : t.filterMap digit? = t.map fun c => c.toNat - 48 := by
    rw [← List.filterMap_eq_map]
    exact List.filterMap_congr fun c hc => digit?_eq (h c hc)
  rw [numeralValue, hdigits, List.foldl_map]
  rfl

namespace Decimal

theorem wellSpaced_eq (h : Decimal n t) : wellSpaced t = true := by
  obtain ⟨c, cs, rfl⟩ := List.exists_cons_of_ne_nil h.nonempty
  have hc := isDigit_of_ascii (h.digits c List.mem_cons_self)
  cases cs with
  | nil => exact hc
  | cons d cs =>
      rw [wellSpaced, if_pos hc]
      exact wellSpaced'_digits fun x hx => h.digits x (List.mem_cons_of_mem c hx)

/-- A number is read unless it has too many digits. -/
theorem integer?_eq (h : Decimal n t) :
    integer? t = if digitLimit < t.length then .error (.tooLong t.length) else .ok n := by
  have hnumeral : ∀ c ∈ t, isNumeral c = true := fun c hc => by
    rw [isNumeral, isDigit_of_ascii (h.digits c hc), Bool.true_or]
  have hcount : t.countP isDigit = t.length :=
    List.countP_eq_length.mpr fun c hc => isDigit_of_ascii (h.digits c hc)
  have htake : t.takeWhile isNumeral = t := List.takeWhile_eq_self_iff.mpr hnumeral
  have hdrop : t.dropWhile isNumeral = [] := List.dropWhile_eq_nil_iff.mpr hnumeral
  have hblank : t.dropWhile isIntegerBlank = t := by
    obtain ⟨c, cs, rfl⟩ := List.exists_cons_of_ne_nil h.nonempty
    rw [List.dropWhile_cons, isIntegerBlank_digit (h.digits c List.mem_cons_self)]
    rfl
  have hsign : splitSign t = (false, t) := by
    obtain ⟨c, cs, rfl⟩ := List.exists_cons_of_ne_nil h.nonempty
    have hc : c ≠ '-' ∧ c ≠ '+' :=
      of_isDigit (p := fun c => c ≠ '-' ∧ c ≠ '+') (by decide) (h.digits c List.mem_cons_self)
    unfold splitSign
    split
    · next heq => exact absurd (List.cons.inj heq).1 hc.1
    · next heq => exact absurd (List.cons.inj heq).1 hc.2
    · rfl
  simp only [integer?, hblank, hsign, htake, hdrop, hcount, h.wellSpaced_eq,
    numeralValue_digits h.digits, h.value, List.all_nil, Bool.not_true, Bool.false_eq_true,
    if_false]

theorem plain (h : Decimal n t) : PlainWord t := by
  have hnot : ∀ c : Char, c.isDigit = false → c ∉ t := fun c hc hmem => by
    rw [h.digits c hmem] at hc
    cases hc
  exact ⟨h.nonempty, hnot _ rfl, hnot _ rfl, hnot _ rfl⟩

theorem chars (h : Decimal n t) : ∀ c ∈ t, c ∉ separators := fun c hc =>
  of_isDigit (p := fun c => c ∉ separators) (by decide) (h.digits c hc)

end Decimal

end Text

/-! ### Choosing lines -/

namespace Application

variable {w : World} {ls : Except Fault (List Value)} {s : Value}

theorem runHead_source (h : LineSource w ls s) (count : Option Text) :
    runHead ((LineFilter.head count).arguments s) w =
      .ofYield ((LineFilter.head count).arguments s) w (.after (countOf count) fun n =>
        .after ls fun ls => ⟨firstLines ls n, none⟩) := by
  simp only [LineFilter.arguments, LineFilter.options, runHead, selection_source h]
  cases countOf count with
  | error e => rfl
  | ok n => cases ls <;> rfl

theorem runTail_source (h : LineSource w ls s) (count : Option Text) :
    runTail ((LineFilter.tail count).arguments s) w =
      .ofYield ((LineFilter.tail count).arguments s) w (.after (countOf count) fun n =>
        .after ls fun ls => ⟨lastLines ls n, none⟩) := by
  simp only [LineFilter.arguments, LineFilter.options, runTail, selection_source h]
  cases countOf count with
  | error e => rfl
  | ok n => cases ls <;> rfl

theorem countOf_decimal {n : Nat} {t : Text} (h : Text.Decimal n t)
    (hlimit : t.length ≤ Text.digitLimit) : countOf (some t) = .ok (n : Int) := by
  rw [countOf, Value.integer?, h.integer?_eq, if_neg (Nat.not_lt.mpr hlimit)]

theorem countOf_tooLong {n : Nat} {t : Text} (h : Text.Decimal n t)
    (hlimit : Text.digitLimit < t.length) :
    countOf (some t) = .error (.integer (.tooLong t.length)) := by
  rw [countOf, Value.integer?, h.integer?_eq, if_pos hlimit]

theorem firstLines_texts (lines : List Text) (n : Nat) :
    firstLines (lines.map .text) n = (lines.take n).map .text := by
  rw [firstLines, Int.toNat_natCast, List.map_take]

theorem lastLines_texts (lines : List Text) (n : Nat) :
    lastLines (lines.map .text) n = (lines.drop (lines.length - n)).map .text := by
  rw [lastLines, Int.toNat_natCast, List.length_map, List.map_drop]

end Application

/-- The last lines of the first. -/
theorem drop_take_eq_extract {α : Type} (xs : List α) (a b : Nat) :
    (xs.take a).drop ((xs.take a).length - b) =
      xs.extract (min a xs.length - b) (min a xs.length) := by
  rw [List.length_take, List.drop_take, List.extract_eq_take_drop]
  rcases Nat.le_total a xs.length with h | h
  · rw [Nat.min_eq_left h]
  · rw [Nat.min_eq_right h, List.take_of_length_le (by rw [List.length_drop]; omega),
      List.take_of_length_le (by rw [List.length_drop])]

theorem take_ne_nil {α : Type} {xs : List α} (hne : xs ≠ []) {n : Nat} (hn : 1 ≤ n) :
    xs.take n ≠ [] := fun hnil =>
  (List.take_eq_nil_iff.mp hnil).elim (Nat.one_le_iff_ne_zero.mp hn) hne

theorem whole_take {lines : List Text} (h : ∀ l ∈ lines, l.getLast? = some '\n') (n : Nat) :
    ∀ l ∈ lines.take n, l.getLast? = some '\n' :=
  fun l hl => h l (List.mem_of_mem_take hl)

namespace LineFilter

variable {a : LineFilter} {w : World} {f : Text}

theorem plain_count {t : Text} (h : PlainWord t) : ∀ u ∈ countOptions (some t), PlainWord u :=
  List.forall_mem_cons.mpr
    ⟨⟨by decide, by decide, by decide, by decide⟩, List.forall_mem_singleton.mpr h⟩

theorem unseparated_count {n : Nat} {t : Text} (h : Text.Decimal n t)
    (hf : ∀ c ∈ f, c ∉ separators) :
    ∀ u ∈ countOptions (some t) ++ [f], ∀ c ∈ u, c ∉ separators := by
  simp only [countOptions, List.cons_append, List.nil_append, List.forall_mem_cons]
  exact ⟨notMem_of_all (by decide), h.chars, hf, by simp⟩

/-- A line with a filter and a name that need no quotes. -/
theorem runLine_named (ha : ∀ t ∈ a.options, PlainWord t)
    (hchars : ∀ t ∈ a.options ++ [f], ∀ c ∈ t, c ∉ separators) (h : OwnName w f)
    (out : List Value) :
    runLine (a.application.name ++ following (a.options ++ [f])) out w =
      behind out (a.application.exec (a.arguments (.text f)) w).running := by
  have hname : Application.isName a.application.name = true := by cases a <;> rfl
  have hne : ∀ t ∈ a.options ++ [f], t ≠ [] :=
    List.forall_mem_append.mpr
      ⟨fun t ht => (ha t ht).nonempty, List.forall_mem_singleton.mpr h.nonempty⟩
  have hreads : ∀ x ∈ (a.options ++ [f]).map fun t => (t, [t]),
      ReadAs x.1 (x.2.map fun t => .note (.word t)) :=
    List.forall_mem_map.mpr fun t ht => Segment.readAs_bare (hne t ht) (hchars t ht)
  have hrow : a.words ++ [.text f] = .text a.application.name ::
      (((a.options ++ [f]).map fun t => (t, [t])).flatMap Prod.snd).map .text := by
    rw [List.flatMap_map, List.flatMap_singleton', words, List.map_append]
    rfl
  have htexts : ((a.options ++ [f]).map fun t => (t, [t])).map Prod.fst = a.options ++ [f] := by
    rw [List.map_map]
    exact List.map_id _
  have hline := runLine_words hname (Segment.readAs_name hname) hreads hrow
    (Command.expandRow_concat (Command.star_words ha) h) out
  rwa [Command.runRow_words (Command.callArguments_named ha h.unquoted (Or.inl rfl)), htexts]
    at hline

section Counts

variable {n : Nat} {t : Text} {lines : List Text} {src : Value}

theorem running_exec_head (h : LineSource w (.ok (lines.map .text)) src) (ht : Text.Decimal n t)
    (hlimit : t.length ≤ Text.digitLimit) :
    (Application.exec .head ((head (some t)).arguments src) w).running =
      ((lines.take n).map .text, w, none) := by
  rw [Application.exec, Application.runHead_source h, Application.countOf_decimal ht hlimit,
    Yield.after, Yield.after, Application.firstLines_texts]
  rfl

theorem running_exec_tail (h : LineSource w (.ok (lines.map .text)) src) (ht : Text.Decimal n t)
    (hlimit : t.length ≤ Text.digitLimit) :
    (Application.exec .tail ((tail (some t)).arguments src) w).running =
      ((lines.drop (lines.length - n)).map .text, w, none) := by
  rw [Application.exec, Application.runTail_source h, Application.countOf_decimal ht hlimit,
    Yield.after, Yield.after, Application.lastLines_texts]
  rfl

theorem running_exec_head_unread {e : Fault} (h : LineSource w (.error e) src)
    (ht : Text.Decimal n t) (hlimit : t.length ≤ Text.digitLimit) :
    (Application.exec .head ((head (some t)).arguments src) w).running = ([], w, some e) := by
  rw [Application.exec, Application.runHead_source h, Application.countOf_decimal ht hlimit]
  rfl

theorem running_exec_head_tooLong {ls : Except Fault (List Value)} (h : LineSource w ls src)
    (ht : Text.Decimal n t) (hlimit : Text.digitLimit < t.length) :
    (Application.exec .head ((head (some t)).arguments src) w).running =
      ([], w, some (.integer (.tooLong t.length))) := by
  rw [Application.exec, Application.runHead_source h, Application.countOf_tooLong ht hlimit]
  rfl

theorem running_exec_tail_tooLong {ls : Except Fault (List Value)} (h : LineSource w ls src)
    (ht : Text.Decimal n t) (hlimit : Text.digitLimit < t.length) :
    (Application.exec .tail ((tail (some t)).arguments src) w).running =
      ([], w, some (.integer (.tooLong t.length))) := by
  rw [Application.exec, Application.runTail_source h, Application.countOf_tooLong ht hlimit]
  rfl

/-- Lines that are passed on to `tail`. -/
theorem running_call_tail_fed (hne : lines ≠ []) (hwhole : ∀ l ∈ lines, l.getLast? = some '\n')
    (ht : PlainWord t) (w : World) :
    (Command.call [(tail (some t)).words] [.list (lines.map .text)] [] w).running =
      (Application.exec .tail ((tail (some t)).arguments (.list (lines.map .text))) w).running := by
  have hcall := running_call_fed (spelledBy_options (a := tail (some t)) (plain_count ht) w) hne
  rw [heard_of_unquoted (unquoted_of_whole hwhole)] at hcall
  have hworld : ((tail (some t)).on lines w).world = w := (tail (some t)).world_exec _ w
  change _ = ((tail (some t)).on lines w).running
  rw [Effect.running, hworld]
  exact hcall

end Counts

/-- The rows of a pipe that takes the first lines of a file and of these the last. -/
def headTail (s t f : Text) : List Row :=
  [(head (some s)).words ++ [.text f], (tail (some t)).words]

section HeadTail

variable {s t : Text} {lines : List Text}

theorem running_headTail (s t f : Text) (out : List Value) (w : World) :
    (Command.run .pipe (headTail s t f) [] out w).running =
      (Command.call [(head (some s)).words ++ [.text f]] [.list []] [] w).andThen fun _ out w =>
        (Command.call [(tail (some t)).words] [.list out] [] w).running := by
  have hhead : Command.IsBlock [(head (some s)).words ++ [.text f]] :=
    (head (some s)).isBlock_name ((head (some s)).options.map .text ++ [.text f])
  exact Command.running_run_pair hhead ((tail (some t)).isBlock_name _) out w

/-- A pipe whose first call fails. -/
theorem running_headTail_failed {e : Fault} (h : OwnName w f) (hs : PlainWord s)
    (hfail : (Application.exec .head ((head (some s)).arguments (.text f)) w).running =
      ([], w, some e)) (t : Text) (out : List Value) :
    (Command.run .pipe (headTail s t f) [] out w).running = ([], w, some e) := by
  have hhead := running_call_named (a := head (some s)) (plain_count hs) h (Or.inr rfl)
  rw [running_headTail, Command.Outcome.andThen_of_failed (hhead.trans hfail)]

/-- A pipe whose first call gives out lines: these are what the second call is run on. -/
theorem running_headTail_done {n : Nat} (h : OwnName w f) (hs : Text.Decimal n s)
    (ht : PlainWord t) (hlimit : s.length ≤ Text.digitLimit) (hn : 1 ≤ n)
    (hread : w.readLines f = .ok lines) (hne : lines ≠ [])
    (hwhole : ∀ l ∈ lines, l.getLast? = some '\n') (out : List Value) :
    (Command.run .pipe (headTail s t f) [] out w).running =
      (Application.exec .tail ((tail (some t)).arguments (.list ((lines.take n).map .text)))
        w).running := by
  have hfile := lineSource_text h.nonempty h.dash (World.openFile_of_ok hread)
  have hcall := running_call_named (a := head (some s)) (plain_count hs.plain) h (Or.inr rfl)
  have hhead := hcall.trans (running_exec_head hfile hs hlimit)
  rw [running_headTail, Command.Outcome.andThen_of_done hhead]
  exact running_call_tail_fed (take_ne_nil hne hn) (whole_take hwhole n) ht w

end HeadTail

end LineFilter

/-- In a file of whole lines, the last `b` of the first `a` lines are the slice that ends with the
line `a`, or with the last line if there are fewer, and has `b` lines or as many as there are. The
first `a` lines and the last `b` are the whole file if it has `a + b` lines, whether the calls are
given as rows or written as lines. Where the file cannot be read, the pipe fails with that, and a
number with too many digits is refused. The name of the file has to come to itself. -/
theorem head_tail_slice {w : World} {f s t : Text} {a b : Nat} (h : OwnName w f)
    (hs : Text.Decimal a s) (ht : Text.Decimal b t) (out : List Value) :
    (∀ lines, w.readLines f = .ok lines → lines ≠ [] → (∀ l ∈ lines, l.getLast? = some '\n') →
      s.length ≤ Text.digitLimit →
      (1 ≤ a → t.length ≤ Text.digitLimit →
        (Command.run .pipe (LineFilter.headTail s t f) [] out w).running =
          ((lines.extract (min a lines.length - b) (min a lines.length)).map .text, w, none)) ∧
      (1 ≤ a → Text.digitLimit < t.length →
        (Command.run .pipe (LineFilter.headTail s t f) [] out w).running =
          ([], w, some (.integer (.tooLong t.length)))) ∧
      (a + b = lines.length → t.length ≤ Text.digitLimit →
        ∃ first last : List Text, first ++ last = lines ∧
          (Command.run .call [["head".toList, "-n".toList, s, f].map .text] [] [] w).running =
            (first.map .text, w, none) ∧
          (Command.run .call [["tail".toList, "-n".toList, t, f].map .text] [] [] w).running =
            (last.map .text, w, none) ∧
          ((∀ c ∈ f, c ∉ separators) →
            runLine ("head".toList ++ following ["-n".toList, s, f]) [] w =
              (first.map .text, w, none) ∧
            runLine ("tail".toList ++ following ["-n".toList, t, f]) [] w =
              (last.map .text, w, none)))) ∧
    (∀ e, w.readLines f = .error e → s.length ≤ Text.digitLimit →
      (Command.run .pipe (LineFilter.headTail s t f) [] out w).running = ([], w, some e)) ∧
    (Text.digitLimit < s.length →
      (Command.run .pipe (LineFilter.headTail s t f) [] out w).running =
        ([], w, some (.integer (.tooLong s.length)))) := by
  have hnamed : ∀ {ls : Except Fault (List Value)}, w.openFile (.text f) = ls →
      LineSource w ls (.text f) := lineSource_text h.nonempty h.dash
  refine ⟨fun lines hread hne hwhole hslimit => ?_, fun e hread hslimit => ?_, fun hslimit => ?_⟩
  · have hfile := hnamed (World.openFile_of_ok hread)
    have hpipe := fun ha =>
      LineFilter.running_headTail_done h hs ht.plain hslimit ha hread hne hwhole out
    have htaken := fun ha => lineSource_list w (take_ne_nil hne ha)
      (head?_ne_of_whole (whole_take hwhole a))
    refine ⟨fun ha htlimit => ?_, fun ha htlimit => ?_, fun hab htlimit => ?_⟩
    · rw [hpipe ha, ← drop_take_eq_extract]
      exact LineFilter.running_exec_tail (htaken ha) ht htlimit
    · rw [hpipe ha]
      exact LineFilter.running_exec_tail_tooLong (htaken ha) ht htlimit
    · have hhead := LineFilter.running_exec_head hfile hs hslimit
      have htail := LineFilter.running_exec_tail hfile ht htlimit
      have hrest : lines.length - b = a := by omega
      rw [hrest] at htail
      refine ⟨lines.take a, lines.drop a, List.take_append_drop a lines, ?_, ?_, fun hf => ?_⟩
      · exact (LineFilter.running_call_named (a := .head (some s))
          (LineFilter.plain_count hs.plain) h (Or.inl rfl)).trans hhead
      · exact (LineFilter.running_call_named (a := .tail (some t))
          (LineFilter.plain_count ht.plain) h (Or.inl rfl)).trans htail
      · constructor
        · have hline := LineFilter.runLine_named (a := .head (some s))
            (LineFilter.plain_count hs.plain) (LineFilter.unseparated_count hs hf) h []
          exact hline.trans (congrArg (behind []) hhead)
        · have hline := LineFilter.runLine_named (a := .tail (some t))
            (LineFilter.plain_count ht.plain) (LineFilter.unseparated_count ht hf) h []
          exact hline.trans (congrArg (behind []) htail)
  · exact LineFilter.running_headTail_failed h hs.plain (LineFilter.running_exec_head_unread
      (hnamed (World.openFile_of_error hread)) hs hslimit) t out
  · exact LineFilter.running_headTail_failed h hs.plain
      (LineFilter.running_exec_head_tooLong (hnamed rfl) hs hslimit) t out

/-- The last two of the first three lines, and three lines and one that are all. -/
theorem head_tail_slice_pattern :
    OwnName World.oddNames "a*".toList ∧ OwnName World.oddNames "g".toList ∧
      Text.Decimal 3 "03".toList ∧
      (Command.run .pipe (LineFilter.headTail "03".toList "2".toList "a*".toList) [] []
        World.oddNames).running =
        (["a\n".toList, "b\n".toList].map .text, World.oddNames, none) ∧
      (∃ first last : List Text,
        first ++ last = [" b\n".toList, "a\n".toList, "b\n".toList, "a\n".toList] ∧
        runLine "head -n 03 a*".toList [] World.oddNames =
          (first.map .text, World.oddNames, none) ∧
        runLine "tail -n 1 a*".toList [] World.oddNames =
          (last.map .text, World.oddNames, none)) ∧
      (Command.run .pipe (LineFilter.headTail "03".toList "2".toList "g".toList) [] []
        World.oddNames).running =
        ([], World.oddNames, some (.decoding ⟨.badStart, 1, [255]⟩)) := by
  have hpattern : OwnName World.oddNames "a*".toList :=
    ⟨⟨by decide, by decide, fun _ => Or.inr rfl⟩, by decide⟩
  have hoctets : OwnName World.oddNames "g".toList :=
    ⟨⟨by decide, by decide, fun h => absurd h (by decide)⟩, by decide⟩
  have hthree : Text.Decimal 3 "03".toList :=
    ⟨by decide, List.all_eq_true.mp (by decide), by decide⟩
  have hread : World.oddNames.readLines "a*".toList =
      .ok [" b\n".toList, "a\n".toList, "b\n".toList, "a\n".toList] := by decide +kernel
  have hslice := (head_tail_slice hpattern hthree (Text.decimal_ofNat 2) []).1 _ hread (by decide)
    (by decide) (by decide)
  have hparts := (head_tail_slice hpattern hthree (Text.decimal_ofNat 1) []).1 _ hread (by decide)
    (by decide) (by decide)
  refine ⟨hpattern, hoctets, hthree, hslice.1 (by decide) (by decide), ?_, ?_⟩
  · obtain ⟨first, last, hall, -, -, hlines⟩ := hparts.2.2 (by decide) (by decide)
    exact ⟨first, last, hall, hlines (notMem_of_all (by decide))⟩
  · exact (head_tail_slice hoctets hthree (Text.decimal_ofNat 2) []).2.1 _ (by decide +kernel)
      (by decide)

/-- A file of whole lines whose name looks like a flag and a number with too many digits: both are
refused. -/
theorem head_tail_refused :
    World.oddNames.readLines "-f".toList = .ok ["b\n".toList, "a\n".toList] ∧
      (Command.run .pipe (LineFilter.headTail "2".toList "1".toList "-f".toList) [] []
        World.oddNames).out = [] ∧
      (Command.run .pipe (LineFilter.headTail "2".toList "1".toList "-f".toList) [] []
        World.oddNames).fault = some .wrongFlag ∧
      (Command.run .pipe
        (LineFilter.headTail (Text.ofNat (Nat.pow 10 Text.digitLimit)) "1".toList "a*".toList) [] []
        World.oddNames).running =
        ([], World.oddNames,
          some (.integer (.tooLong (Text.ofNat (Nat.pow 10 Text.digitLimit)).length))) := by
  have hpattern : OwnName World.oddNames "a*".toList :=
    ⟨⟨by decide, by decide, fun _ => Or.inr rfl⟩, by decide⟩
  have hlong := Text.lt_length_ofNat_pow (k := Text.digitLimit) (by decide)
  have hsource := lineSource_text (w := World.oddNames) hpattern.nonempty hpattern.dash rfl
  have hdecimal := Text.decimal_ofNat (Nat.pow 10 Text.digitLimit)
  refine ⟨by decide +kernel, by decide +kernel, by decide +kernel, ?_⟩
  exact LineFilter.running_headTail_failed hpattern hdecimal.plain
    (LineFilter.running_exec_head_tooLong hsource hdecimal hlong) _ []

end CommandShell
