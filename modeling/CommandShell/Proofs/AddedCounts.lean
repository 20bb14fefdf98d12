import CommandShell.Proofs.GuardedCalls
import CommandShell.Proofs.SortedLines
import Mathlib.Data.List.InsertIdx
import Mathlib.Data.List.Perm.Basic

/-! # Counts that add up

Several files are counted one by one by `wc`, and all together when `cat` gives out their lines
first. Both calls replace patterns and take off quotes alike, so they read the same files in the
same order, and the counts of the whole are the sums of the counts of the files. -/

namespace CommandShell

namespace Application

/-- The sums of numbers of lines, words and characters. -/
def sumCounts (cs : List (Nat × Nat × Nat)) : Nat × Nat × Nat :=
  cs.foldr (fun c sum => (c.1 + sum.1, c.2.1 + sum.2.1, c.2.2 + sum.2.2)) (0, 0, 0)

/-- The numbers of lines, words and characters of lines that are texts. -/
def tally (lines : List Text) : Nat × Nat × Nat :=
  (lines.length, (lines.flatMap Text.words).length, lines.flatten.length)

theorem wordCount_texts (lines : List Text) :
    wordCount (lines.map .text) = .ok (lines.flatMap Text.words).length := by
  induction lines with
  | nil => rfl
  | cons l lines ih =>
      simp only [List.map_cons, wordCount, ih, List.flatMap_cons, List.length_append]

theorem counts_texts (lines : List Text) : counts (lines.map .text) = .ok (tally lines) := by
  have hsize : (lines.map Value.text).foldr (fun v n => v.size + n) 0 = lines.flatten.length := by
    induction lines with
    | nil => rfl
    | cons l lines ih =>
        rw [List.map_cons, List.foldr_cons, ih, List.flatten_cons, List.length_append, Value.size]
  simp only [counts, wordCount_texts, hsize, List.length_map, tally]

theorem tally_flatMap {α : Type} (lines : α → List Text) (as : List α) :
    tally (as.flatMap lines) = sumCounts (as.map fun a => tally (lines a)) := by
  induction as with
  | nil => rfl
  | cons a as ih =>
      rw [List.map_cons, sumCounts, List.foldr_cons, ← sumCounts, ← ih]
      simp only [tally, List.flatMap_cons, List.flatMap_append, List.flatten_append,
        List.length_append]

/-- The order in which lines are counted does not matter. -/
theorem tally_perm {lines lines' : List Text} (h : lines.Perm lines') :
    tally lines = tally lines' := by
  rw [tally, tally, h.length_eq, (h.flatMap_right Text.words).length_eq, h.flatten.length_eq]

end Application

/-! ### Files read in turn -/

namespace Yield

variable {α β : Type}

theorem each_map (f : β → Yield) (g : α → β) (as : List α) :
    each f (as.map g) = each (fun a => f (g a)) as := by
  induction as with
  | nil => rfl
  | cons a as ih => simp only [List.map_cons, each, ih]

/-- The first failure ends it. -/
theorem each_append_of_failed {f : α → Yield} {as : List α} {b : α} {e : Fault}
    (h : ∀ a ∈ as, (f a).fault = none) (hb : f b = ⟨[], some e⟩) (rest : List α) :
    each f (as ++ b :: rest) = ⟨as.flatMap fun a => (f a).items, some e⟩ := by
  induction as with
  | nil => simp only [List.nil_append, each, hb, List.flatMap_nil]
  | cons a as ih =>
      have hrest := ih fun a ha => h a (List.mem_cons_of_mem _ ha)
      simp only [List.cons_append, each, h a List.mem_cons_self, hrest, List.flatMap_cons]

end Yield

namespace World

variable {w : World}

/-- The lines of a file; none if it cannot be read. -/
def linesOf (w : World) (f : Text) : List Text := (w.readLines f).toOption.getD []

def Readable (w : World) (f : Text) : Prop := w.readLines f = .ok (w.linesOf f)

instance (w : World) (f : Text) : Decidable (w.Readable f) := inferInstanceAs (Decidable (_ = _))

/-- A file that can be read and whose every line ends with a line break. -/
def HasWholeLines (w : World) (f : Text) : Prop :=
  w.Readable f ∧ ∀ l ∈ w.linesOf f, l.getLast? = some '\n'

instance (w : World) (f : Text) : Decidable (w.HasWholeLines f) :=
  inferInstanceAs (Decidable (_ ∧ _))

/-- What is yielded for a file that has to be read for it. -/
def yieldOf (w : World) (given : Text → List Text → List Value) (f : Text) : Yield :=
  match w.readLines f with
  | .error e => ⟨[], some e⟩
  | .ok lines => ⟨given f lines, none⟩

theorem Readable.yieldOf_eq {f : Text} (h : w.Readable f)
    (given : Text → List Text → List Value) :
    w.yieldOf given f = ⟨given f (w.linesOf f), none⟩ := by
  rw [yieldOf, h]

theorem flatMap_yieldOf {files : List Text} (h : ∀ f ∈ files, w.Readable f)
    (given : Text → List Text → List Value) :
    (files.flatMap fun f => (w.yieldOf given f).items) =
      files.flatMap fun f => given f (w.linesOf f) :=
  List.flatMap_congr fun f hf => congrArg Yield.items ((h f hf).yieldOf_eq given)

theorem each_yieldOf {files : List Text} (h : ∀ f ∈ files, w.Readable f)
    (given : Text → List Text → List Value) :
    Yield.each (w.yieldOf given) files = ⟨files.flatMap fun f => given f (w.linesOf f), none⟩ := by
  rw [Yield.each_eq_flatMap _ _ fun f hf => congrArg Yield.fault ((h f hf).yieldOf_eq given),
    flatMap_yieldOf h]

theorem each_yieldOf_failed {before : List Text} {f : Text} {e : Fault}
    (h : ∀ g ∈ before, w.Readable g) (hf : w.readLines f = .error e) (after : List Text)
    (given : Text → List Text → List Value) :
    Yield.each (w.yieldOf given) (before ++ f :: after) =
      ⟨before.flatMap fun g => given g (w.linesOf g), some e⟩ := by
  have hfailed : w.yieldOf given f = ⟨[], some e⟩ := by rw [yieldOf, hf]
  rw [Yield.each_append_of_failed (fun g hg => congrArg Yield.fault ((h g hg).yieldOf_eq given))
    hfailed, flatMap_yieldOf h]

end World

namespace Application

variable {files : List Text} {w : World}

/-- The line that is given out for a file that is counted. -/
def report (f : Text) (lines : List Text) : Value := .text (f ++ [':'] ++ countsText (tally lines))

theorem runCat_files (files : List Text) (w : World) :
    runCat (files.map .text) w = .ofYield (files.map .text) w
      (Yield.each (w.yieldOf fun _ lines => lines.map .text) files) := by
  rw [runCat, Yield.each_map]
  refine congrArg (Effect.ofYield _ _ <| Yield.each · files) (funext fun f => ?_)
  simp only [World.openFile, World.yieldOf]
  cases w.readLines f <;> rfl

/-- Do names start with one that looks like a flag? -/
def startsWithFlag (files : List Text) : Bool := files.head?.bind List.head? = some '-'

theorem runWc_flag (h : startsWithFlag files = true) (w : World) :
    runWc (files.map .text) w = .failed (files.map .text) w .noFlags := by
  rcases files with _ | ⟨_ | ⟨c, name⟩, files⟩
  · simp [startsWithFlag] at h
  · simp [startsWithFlag] at h
  · obtain rfl : c = '-' := by simpa [startsWithFlag] using h
    rfl

theorem runWc_files (hne : files ≠ []) (hfirst : files.head? ≠ some [])
    (h : startsWithFlag files = false) (w : World) :
    runWc (files.map .text) w = .ofYield (files.map .text) w
      (Yield.each (w.yieldOf fun f lines => [report f lines]) files) := by
  obtain ⟨f, rest, rfl⟩ := List.exists_cons_of_ne_nil hne
  have hdash : f.head? ≠ some '-' := of_decide_eq_false h
  have haccepted : refuseFlag .noFlags ((f :: rest).map .text) = .ok () :=
    (lineSource_text (w := w) (by simpa using hfirst) hdash rfl).accepted _
  have hitems : sourceItems ((f :: rest).map .text) = .ok ((f :: rest).map .text, false) := rfl
  simp only [runWc, haccepted, hitems]
  rw [Yield.each_map]
  refine congrArg (Effect.ofYield _ _ <| Yield.each · (f :: rest)) (funext fun g => ?_)
  simp only [World.openFile, World.yieldOf]
  cases w.readLines g with
  | error e => rfl
  | ok lines => simp only [Except.map, counted, counts_texts, Value.shown, report]

end Application

namespace Command

variable {w : World} {words : List Value} {files : List Text}

/-- The names of files that the words of a call come to, once patterns are replaced and quotes taken
off. -/
structure Names (w : World) (words : List Value) (files : List Text) : Prop where
  expanded : (expandRow w words).2 = none
  unquoted : (expandRow w words).1.map unquote = files.map .text

/-- Without input, an application is run on the files that its words name. -/
theorem Names.running_call (h : Names w words files) {a : Application}
    (ha : a.arguments (files.map .text) = .ok (files.map .text)) {input : List Value}
    (hinput : input = [] ∨ input = [.list []]) :
    (call [.text a.name :: words] input [] w).running = (a.exec (files.map .text) w).running := by
  have hargs : callArguments (expandRow w words).1 (input ++ linesRead w []) =
      files.map .text := by
    rcases hinput with rfl | rfl
    · exact h.unquoted
    · exact h.unquoted
  rw [running_named (application_name a)]
  simp only [perform, prepare, takeInput, takeInputFrom, h.expanded, hargs, ha, conclude,
    remaining, Bool.false_eq_true, if_false, List.nil_append, Effect.running]
  cases (a.exec (files.map .text) w).fault with
  | some e => rfl
  | none => rfl

/-- Words that come to themselves may change places: a pattern that describes its own name is taken
out and put at the end. -/
theorem exists_expandFrom (h : ∀ f ∈ files, OwnWord w f) {n i : Nat} (hi : i + n = files.length) :
    ∃ order : List Text, order.Perm files ∧
      expandFrom w n i (files.map .text) = (order.map .text, none) := by
  induction n generalizing i files with
  | zero => exact ⟨files, List.Perm.refl _, rfl⟩
  | succ n ih =>
      have hlt : i < files.length := by omega
      have hword : (files.map Value.text)[i]? = some (.text files[i]) := by
        rw [List.getElem?_map, List.getElem?_eq_getElem hlt, Option.map_some]
      have hstay := ih h (i := i + 1) (by omega)
      simp only [expandFrom, hword, Value.has, List.contains_iff_mem]
      by_cases hstar : '*' ∈ files[i]
      · rw [if_pos hstar]
        rcases (h _ (List.getElem_mem hlt)).alone hstar with hnone | hself
        · rw [hnone]
          exact hstay
        · -- The name goes to the end, and the next one to be looked at stands behind its old place.
          have hmoved : (files.eraseIdx i ++ [files[i]]).Perm files :=
            (List.perm_append_singleton _ _).trans (List.getElem_cons_eraseIdx_perm hlt)
          have hmap : (files.map Value.text).eraseIdx i ++ [files[i]].map .text =
              (files.eraseIdx i ++ [files[i]]).map .text := by
            rw [List.map_append, List.eraseIdx_map]
          obtain ⟨order, hperm, hrun⟩ := ih (fun f hf => h f (hmoved.mem_iff.mp hf)) (i := i + 1)
            (by rw [hmoved.length_eq]; omega)
          rw [hself]
          refine ⟨order, hperm.trans hmoved, ?_⟩
          rw [← hrun, ← hmap]
      · rw [if_neg hstar]
        exact hstay

theorem exists_names (h : ∀ f ∈ files, OwnWord w f) :
    ∃ order : List Text, order.Perm files ∧ ((∀ f ∈ files, '*' ∉ f) → order = files) ∧
      Names w (files.map .text) order := by
  obtain ⟨order, hperm, hrun⟩ := exists_expandFrom h (Nat.zero_add _)
  have hrow : expandRow w (files.map .text) = (order.map .text, none) := by
    rw [expandRow, List.length_map, hrun]
  refine ⟨order, hperm, fun hstars => ?_, ⟨by rw [hrow], ?_⟩⟩
  · have hplain : expandRow w (files.map .text) = (files.map .text, none) :=
      expandRow_of_plain (by simpa [Value.has] using hstars) w
    exact List.map_injective_iff.mpr (fun s t hst => Value.text.inj hst)
      (congrArg Prod.fst (hrow.symm.trans hplain))
  · rw [hrow, List.map_map]
    exact List.map_congr_left fun f hf => (h f (hperm.mem_iff.mp hf)).unquoted

/-! ### The two ways to count -/

theorem Names.running_cat (h : Names w words files) :
    (call [.text "cat".toList :: words] [.list []] [] w).running =
      ((Yield.each (w.yieldOf fun _ lines => lines.map .text) files).items, w,
        (Yield.each (w.yieldOf fun _ lines => lines.map .text) files).fault) := by
  have hcall := h.running_call (a := .cat) rfl (Or.inr rfl)
  rw [Application.exec, Application.runCat_files] at hcall
  exact hcall

/-- Names of which the first looks like a flag are refused. -/
theorem Names.running_wc (h : Names w words files) (hne : files ≠ [])
    (hfirst : files.head? ≠ some []) :
    (call [.text "wc".toList :: words] [] [] w).running =
      if Application.startsWithFlag files then ([], w, some .noFlags)
      else ((Yield.each (w.yieldOf fun f lines => [Application.report f lines]) files).items, w,
        (Yield.each (w.yieldOf fun f lines => [Application.report f lines]) files).fault) := by
  have hargs : Application.arguments .wc (files.map .text) = .ok (files.map .text) :=
    if_pos (by simpa [Application.takes] using hne)
  have hcall := h.running_call (a := .wc) hargs (Or.inl rfl)
  rw [Application.exec] at hcall
  cases hflag : Application.startsWithFlag files with
  | true =>
      rw [Application.runWc_flag hflag] at hcall
      exact hcall
  | false =>
      rw [Application.runWc_files hne hfirst hflag] at hcall
      exact hcall

theorem running_wc_lines {lines : List Text} (hne : lines ≠ [])
    (hwhole : ∀ l ∈ lines, l.getLast? = some '\n') (w : World) :
    (call [[.text "wc".toList]] [.list (lines.map .text)] [] w).running =
      ([.text (Application.countsText (Application.tally lines))], w, none) := by
  have hspelled : LineFilter.SpelledBy .wc w [] := ⟨rfl, rfl⟩
  have hcall := LineFilter.running_call_fed hspelled hne
  rw [LineFilter.heard_of_unquoted (LineFilter.unquoted_of_whole hwhole)] at hcall
  have haccepted := (lineSource_list w hne (head?_ne_of_whole hwhole)).accepted .noFlags
  have hon : LineFilter.on .wc lines w = .ofYield [.list (lines.map .text)] w
      ⟨[.text (Application.countsText (Application.tally lines))], none⟩ := by
    change Application.runWc [.list (lines.map .text)] w = _
    simp only [Application.runWc, haccepted, Application.sourceItems, Application.counted,
      Application.counts_texts, List.nil_append]
  rw [hon] at hcall
  exact hcall

/-- The rows of a pipe that counts the lines of files all together. -/
def catWc (words : List Value) : List Row := [.text "cat".toList :: words, [.text "wc".toList]]

theorem running_catWc (words : List Value) (w : World) (out : List Value) :
    (run .pipe (catWc words) [] out w).running =
      (call [.text "cat".toList :: words] [.list []] [] w).andThen fun _ out w =>
        (call [[.text "wc".toList]] [.list out] [] w).running :=
  running_run_pair (LineFilter.isBlock_name .cat words) (LineFilter.isBlock_name .wc []) out w

theorem Names.running_catWc (h : Names w words files) (hwhole : ∀ f ∈ files, w.HasWholeLines f)
    (hne : ∃ f ∈ files, w.linesOf f ≠ []) (out : List Value) :
    (run .pipe (catWc words) [] out w).running =
      ([.text (Application.countsText (Application.tally (files.flatMap w.linesOf)))], w,
        none) := by
  have hcat := h.running_cat
  rw [World.each_yieldOf fun f hf => (hwhole f hf).1, ← List.map_flatMap] at hcat
  have hlines : files.flatMap w.linesOf ≠ [] := by
    obtain ⟨f, hf, hlines⟩ := hne
    exact fun hnil => hlines (List.flatMap_eq_nil_iff.mp hnil f hf)
  have hends : ∀ l ∈ files.flatMap w.linesOf, l.getLast? = some '\n' := by
    intro l hl
    obtain ⟨f, hf, hmem⟩ := List.mem_flatMap.mp hl
    exact (hwhole f hf).2 l hmem
  rw [Command.running_catWc, Outcome.andThen_of_done hcat]
  exact running_wc_lines hlines hends w

end Command

/-- Files of whole lines, not all of them empty, are counted by `wc` one by one and behind `cat` all
together, and what is counted together are the sums of what is counted one by one. The two calls
read the files in one order, which is the order of their names as far as no name looks like a
pattern. Where a file cannot be read, both fail with the first such file. By its name a file cannot
be counted first if the name looks like a flag. -/
theorem wc_adds_up {w : World} {files : List Text} (h : ∀ f ∈ files, Command.OwnWord w f)
    (out : List Value) :
    ∃ order : List Text, order.Perm files ∧ ((∀ f ∈ files, '*' ∉ f) → order = files) ∧
      ((∀ f ∈ files, w.HasWholeLines f) → (∃ f ∈ files, w.linesOf f ≠ []) →
        (Command.run .pipe (Command.catWc (files.map .text)) [] out w).running =
            ([.text (Application.countsText (Application.sumCounts
              (files.map fun f => Application.tally (w.linesOf f))))], w, none) ∧
          (Command.run .call [.text "wc".toList :: files.map .text] [] [] w).running =
            if Application.startsWithFlag order then ([], w, some .noFlags)
            else (order.map fun f => Application.report f (w.linesOf f), w, none)) ∧
      ∀ before f after e, order = before ++ f :: after → (∀ g ∈ before, w.Readable g) →
        w.readLines f = .error e →
        (Command.run .pipe (Command.catWc (files.map .text)) [] out w).running =
            ((before.flatMap w.linesOf).map .text, w, some e) ∧
          (Command.run .call [.text "wc".toList :: files.map .text] [] [] w).running =
            if Application.startsWithFlag order then ([], w, some .noFlags)
            else (before.map fun g => Application.report g (w.linesOf g), w, some e) := by
  obtain ⟨order, hperm, hstars, hnames⟩ := Command.exists_names h
  have hfirst : order.head? ≠ some [] := fun hhead =>
    (h [] (hperm.mem_iff.mp (List.mem_of_mem_head? hhead))).nonempty rfl
  refine ⟨order, hperm, hstars, fun hwhole hne => ⟨?_, ?_⟩, ?_⟩
  · -- The lines are counted in the order in which the files are read; the sums do not depend on it.
    have hwhole' : ∀ f ∈ order, w.HasWholeLines f := fun f hf => hwhole f (hperm.mem_iff.mp hf)
    obtain ⟨f, hf, hlines⟩ := hne
    rw [hnames.running_catWc hwhole' ⟨f, hperm.mem_iff.mpr hf, hlines⟩ out,
      Application.tally_perm (hperm.flatMap_right w.linesOf), Application.tally_flatMap]
  · obtain ⟨f, hf, -⟩ := hne
    have hnonempty : order ≠ [] := List.ne_nil_of_mem (hperm.mem_iff.mpr hf)
    have hread : ∀ f ∈ order, w.Readable f := fun f hf => (hwhole f (hperm.mem_iff.mp hf)).1
    rw [Command.run, hnames.running_wc hnonempty hfirst, World.each_yieldOf hread,
      ← List.map_eq_flatMap]
  · rintro before f after e rfl hread hf
    have hcat := hnames.running_cat
    rw [World.each_yieldOf_failed hread hf, ← List.map_flatMap] at hcat
    constructor
    · rw [Command.running_catWc, Command.Outcome.andThen_of_failed hcat]
    · rw [Command.run, hnames.running_wc (by simp) hfirst, World.each_yieldOf_failed hread hf,
        ← List.map_eq_flatMap]

/-- Files of whole lines, of which one has the name of a flag, one that of a pattern and one is
empty, and a file with an octet that starts no character. -/
def World.countable : World :=
  { World.odd with root := .folder [
      ("-f".toList, .file (.text "z\n".toList)),
      ("a*".toList, .file (.text "x y\n".toList)),
      ("b".toList, .file (.text [])),
      ("g".toList, .file (.octets [97, 255, 98, 10]))] }

/-- The file with the name of a pattern is read last. Before the file that cannot be read, another
has been given out. -/
theorem wc_adds_up_pattern :
    (∃ order : List Text, order.Perm (["a*", "b", "-f"].map String.toList) ∧
      (Command.run .pipe (Command.catWc (["a*", "b", "-f"].map (.text ·.toList))) [] []
        World.countable).running = ([.text "2:3:6".toList], World.countable, none) ∧
      (Command.run .call [["wc", "a*", "b", "-f"].map (.text ·.toList)] [] []
        World.countable).running =
        if Application.startsWithFlag order then ([], World.countable, some .noFlags)
        else (order.map fun f => Application.report f (World.countable.linesOf f),
          World.countable, none)) ∧
      (Command.run .call [["wc", "a*", "b", "-f"].map (.text ·.toList)] [] []
        World.countable).out = ["b:0:0:0", "-f:1:1:2", "a*:1:2:4"].map (.text ·.toList) ∧
      (Command.run .pipe (Command.catWc (["-f", "g"].map (.text ·.toList))) [] []
        World.countable).running =
        ([.text "z\n".toList], World.countable, some (.decoding ⟨.badStart, 1, [255]⟩)) := by
  have hown : ∀ f ∈ ["a*", "b", "-f"].map String.toList, Command.OwnWord World.countable f := by
    decide +kernel
  have hplain : ∀ f ∈ ["-f", "g"].map String.toList, Command.OwnWord World.countable f := by
    decide +kernel
  obtain ⟨order, hperm, -, hcounted, -⟩ := wc_adds_up hown []
  obtain ⟨order', -, hstars, -, hfailed⟩ := wc_adds_up hplain []
  obtain rfl := hstars (by decide)
  obtain ⟨hpipe, hcall⟩ := hcounted (by decide +kernel) ⟨"-f".toList, by decide, by decide +kernel⟩
  refine ⟨⟨order, hperm, hpipe, hcall⟩, by decide +kernel, ?_⟩
  exact (hfailed ["-f".toList] "g".toList [] _ rfl (by decide +kernel) (by decide +kernel)).1

/-- Behind `cat` two files are counted, by their names they are refused. -/
theorem wc_refuses_flag_name :
    World.countable.HasWholeLines "-f".toList ∧ World.countable.HasWholeLines "b".toList ∧
      (Command.run .pipe (Command.catWc (["-f", "b"].map (.text ·.toList))) [] []
        World.countable).out = [.text "1:1:2".toList] ∧
      (Command.run .call [["wc", "-f", "b"].map (.text ·.toList)] [] [] World.countable).out = [] ∧
      (Command.run .call [["wc", "-f", "b"].map (.text ·.toList)] [] [] World.countable).fault =
        some .noFlags := by
  refine ⟨by decide +kernel, by decide +kernel, by decide +kernel, by decide +kernel,
    by decide +kernel⟩

end CommandShell
