import CommandShell.Proofs.Frame

/-! # Filters and where their lines come from

A filter can be given the name of a file, a file as its input, or the output of another call. The
last two give it the lines themselves, as a list. For a file of whole lines all three ways come to
the same; only a count shows the name that it was given. For a file that cannot be read they come to
the same as long as the filter does not refuse its options, which it does before it opens a file and
after its input has been read. -/

namespace CommandShell

/-- The applications that work on lines, with their options. -/
inductive LineFilter where
  | head (count : Option Text)
  | tail (count : Option Text)
  | sort (reverse : Bool)
  | uniq (ignoreCase : Bool)
  | cut (positions : Text)
  | grep (pattern : Text)
  | wc
  | cat

namespace LineFilter

def application : LineFilter → Application
  | .head _ => .head
  | .tail _ => .tail
  | .sort _ => .sort
  | .uniq _ => .uniq
  | .cut _ => .cut
  | .grep _ => .grep
  | .wc => .wc
  | .cat => .cat

def countOptions : Option Text → List Text
  | none => []
  | some n => ["-n".toList, n]

def options : LineFilter → List Text
  | .head count => countOptions count
  | .tail count => countOptions count
  | .sort reverse => if reverse then ["-r".toList] else []
  | .uniq ignoreCase => if ignoreCase then ["-i".toList] else []
  | .cut positions => ["-b".toList, positions]
  | .grep pattern => [pattern]
  | .wc => []
  | .cat => []

/-- The filter with its options as they stand in a row. -/
def words (a : LineFilter) : Row := (a.application.name :: a.options).map .text

/-- The arguments when the lines come from a source. -/
def arguments (a : LineFilter) (source : Value) : List Value := a.options.map .text ++ [source]

/-- What the filter does with lines. -/
def on (a : LineFilter) (lines : List Text) (w : World) : Effect :=
  a.application.exec (a.arguments (.list (lines.map .text))) w

/-- A count shows the name of the file; other output does not. -/
def label (f : Text) : LineFilter → Value → Value
  | .wc, .text t => .text (f ++ ':' :: t)
  | _, v => v

end LineFilter

/-- A word that stands for itself. -/
structure PlainWord (t : Text) : Prop where
  nonempty : t ≠ []
  single : Text.singleQuote ∉ t
  double : Text.doubleQuote ∉ t
  star : '*' ∉ t

/-- A name that is no flag. -/
structure FileName (f : Text) : Prop where
  plain : PlainWord f
  dash : f.head? ≠ some '-'

/-- The name of a file of whole lines, of which there is one at least. -/
structure FileOf (w : World) (f : Text) (lines : List Text) : Prop extends FileName f where
  reads : w.readLines f = .ok lines
  nonempty : lines ≠ []
  whole : ∀ l ∈ lines, l.getLast? = some '\n'

/-- The name of a file that cannot be read. -/
structure Unreadable (w : World) (f : Text) (e : Fault) : Prop extends FileName f where
  fails : w.readLines f = .error e

/-! ### Where lines come from -/

/-- A source, of lines or of a failure, that cannot be taken for a flag. -/
structure LineSource (w : World) (lines : Except Fault (List Value)) (s : Value) : Prop where
  gives : Application.sourceLines w [s] = lines
  accepted : ∀ fault, Application.refuseFlag fault [s] = .ok ()
  noFlag : ∀ t, s.isText ('-' :: t) = false

section Sources

variable {w : World} {f : Text} {lines : List Text} {e : Fault}

theorem World.openFile_of_ok (h : w.readLines f = .ok lines) :
    w.openFile (.text f) = .ok (lines.map .text) := by
  rw [World.openFile, h]
  rfl

theorem World.openFile_of_error (h : w.readLines f = .error e) :
    w.openFile (.text f) = .error e := by
  rw [World.openFile, h]
  rfl

theorem FileOf.openFile (h : FileOf w f lines) : w.openFile (.text f) = .ok (lines.map .text) :=
  World.openFile_of_ok h.reads

theorem Unreadable.openFile (h : Unreadable w f e) : w.openFile (.text f) = .error e :=
  World.openFile_of_error h.fails

theorem lineSource_text (hne : f ≠ []) (hdash : f.head? ≠ some '-')
    {lines : Except Fault (List Value)} (hl : w.openFile (.text f) = lines) :
    LineSource w lines (.text f) where
  gives := hl
  accepted := by
    intro fault
    obtain ⟨c, cs, rfl⟩ := List.exists_cons_of_ne_nil hne
    have hc : c ≠ '-' := by simpa using hdash
    simp [Application.refuseFlag, Application.firstArgument, Value.first?, Value.isText, hc]
  noFlag := by
    rintro t
    have hflag : f ≠ '-' :: t := by
      rintro rfl
      exact hdash rfl
    simp [Value.isText, hflag]

theorem FileName.source (h : FileName f) {lines : Except Fault (List Value)}
    (hl : w.openFile (.text f) = lines) : LineSource w lines (.text f) :=
  lineSource_text h.plain.nonempty h.dash hl

/-- A line that ends with a line break is no single character but that. -/
theorem ne_char_of_whole {l : Text} (h : l.getLast? = some '\n') {c : Char} (hc : c ≠ '\n') :
    l ≠ [c] := by
  rintro rfl
  exact hc (by simpa using h)

theorem FileOf.ne_char (h : FileOf w f lines) {l : Text} (hl : l ∈ lines) {c : Char}
    (hc : c ≠ '\n') : l ≠ [c] := ne_char_of_whole (h.whole l hl) hc

theorem head?_ne_of_whole (h : ∀ l ∈ lines, l.getLast? = some '\n') :
    lines.head? ≠ some ['-'] := fun hhead =>
  ne_char_of_whole (h _ (List.mem_of_mem_head? hhead)) (by decide) rfl

/-- Lines that are given as a list are a source, unless the first is a dash. -/
theorem lineSource_list (w : World) (hne : lines ≠ []) (hdash : lines.head? ≠ some ['-']) :
    LineSource w (.ok (lines.map .text)) (.list (lines.map .text)) where
  gives := rfl
  accepted := by
    intro fault
    obtain ⟨l, ls, rfl⟩ := List.exists_cons_of_ne_nil hne
    have hl : l ≠ ['-'] := by simpa using hdash
    simp [Application.refuseFlag, Application.firstArgument, Value.first?, Value.isText, hl]
  noFlag := fun _ => rfl

theorem FileOf.list_source (h : FileOf w f lines) :
    LineSource w (.ok (lines.map .text)) (.list (lines.map .text)) :=
  lineSource_list w h.nonempty (head?_ne_of_whole h.whole)

end Sources

/-! ### The applications -/

theorem Yield.each_singleton {α : Type} (f : α → Yield) (a : α) : each f [a] = f a := by
  rw [each]
  split
  · next e he => rw [← he]
  · next he => rw [each, List.append_nil, ← he]

/-- What is yielded once there is a value. -/
def Yield.after {α : Type} (r : Except Fault α) (f : α → Yield) : Yield :=
  match r with
  | .ok a => f a
  | .error e => ⟨[], some e⟩

/-- The effects are the same but for the arguments that are left. -/
def Effect.Alike (e e' : Effect) : Prop := e.added = e'.added ∧ e.fault = e'.fault

namespace Application

variable {w : World} {f : Text} {lines : List Text} {e : Fault}

section Sources

variable {ls : Except Fault (List Value)} {s s' : Value}

theorem runSort_source (h : LineSource w ls s) (reverse : Bool) :
    runSort ((LineFilter.sort reverse).arguments s) w =
      .ofYield [s] w (.after ls fun ls => .ofExcept (arranged reverse ls)) := by
  have hflag : s.isText "-r".toList = false := h.noFlag ['r']
  have hself : (Value.text "-r".toList).isText "-r".toList = true := rfl
  cases reverse with
  | false =>
      simp only [LineFilter.arguments, LineFilter.options, runSort, Bool.false_eq_true, if_false,
        List.map_nil, List.nil_append, hflag, h.accepted, h.gives]
      cases ls <;> rfl
  | true =>
      simp only [LineFilter.arguments, LineFilter.options, runSort, if_true, List.map_cons,
        List.map_nil, List.cons_append, List.nil_append, hself, h.accepted, h.gives]
      cases ls <;> rfl

theorem runUniq_source (h : LineSource w ls s) (ignoreCase : Bool) :
    runUniq ((LineFilter.uniq ignoreCase).arguments s) w =
      .ofYield [s] w (.after ls (runStarts ignoreCase)) := by
  have hflag : s.isText "-i".toList = false := h.noFlag ['i']
  have hself : (Value.text "-i".toList).isText "-i".toList = true := rfl
  cases ignoreCase with
  | false =>
      simp only [LineFilter.arguments, LineFilter.options, runUniq, Bool.false_eq_true, if_false,
        List.map_nil, List.nil_append, hflag, h.accepted, h.gives]
      cases ls <;> rfl
  | true =>
      simp only [LineFilter.arguments, LineFilter.options, runUniq, if_true, List.map_cons,
        List.map_nil, List.cons_append, List.nil_append, hself, h.accepted, h.gives]
      cases ls <;> rfl

/-- How many lines are chosen. -/
def countOf : Option Text → Except Fault Int
  | none => .ok 10
  | some n => (Value.text n).integer?

theorem selection_source (h : LineSource w ls s) (count : Option Text) :
    selection w ((LineFilter.countOptions count).map .text ++ [s]) =
      (countOf count).bind fun n => ls.map fun ls => (ls, n) := by
  have hflag : s.isText "-n".toList = false := h.noFlag ['n']
  have hself : (Value.text "-n".toList).isText "-n".toList = true := rfl
  cases count with
  | none =>
      simp only [LineFilter.countOptions, List.map_nil, List.nil_append, selection, lineCount,
        hflag, Bool.false_eq_true, if_false, h.accepted, h.gives]
      cases ls <;> rfl
  | some n =>
      simp only [LineFilter.countOptions, List.map_cons, List.map_nil, List.cons_append,
        List.nil_append, selection, lineCount, hself, if_true, countOf]
      cases (Value.text n).integer? with
      | error e => rfl
      | ok k =>
          simp only [h.accepted, h.gives]
          cases ls <;> rfl

/-- What is left of lines. -/
def cutAll (cutting : Cutting) : List Value → Yield :=
  Yield.each fun line => .after (cutting.cutLine line) fun t => ⟨[.text t], none⟩

/-- No flag is looked for after the positions, so any source will do. -/
theorem runCut_lines (h : sourceLines w [s] = ls) (positions : Text) :
    runCut ((LineFilter.cut positions).arguments s) w =
      .ofYield [s] w (.after (Cutting.read (Value.text positions).members) fun cutting =>
        .after ls (cutAll cutting)) := by
  have hself : (Value.text "-b".toList).isText "-b".toList = true := rfl
  simp only [LineFilter.arguments, LineFilter.options, List.map_cons, List.map_nil,
    List.cons_append, List.nil_append, runCut, hself, if_true]
  cases Cutting.read (Value.text positions).members with
  | error e => rfl
  | ok cutting =>
      simp only [h]
      cases ls with
      | error e => rfl
      | ok xs =>
          simp only [Yield.after, cutAll]
          congr 2
          funext line
          cases cutting.cutLine line <;> rfl

theorem runCut_source (h : LineSource w ls s) (positions : Text) :
    runCut ((LineFilter.cut positions).arguments s) w =
      .ofYield [s] w (.after (Cutting.read (Value.text positions).members) fun cutting =>
        .after ls (cutAll cutting)) := runCut_lines h.gives positions

/-- The applications that do not ask whether they were given a list. -/
theorem alike_source (h : LineSource w ls s) (h' : LineSource w ls s') {a : LineFilter}
    (ha : a.application ∈ [.head, .tail, .sort, .uniq, .cut]) :
    (a.application.exec (a.arguments s) w).Alike (a.application.exec (a.arguments s') w) := by
  cases a with
  | head count =>
      simp only [LineFilter.application, exec, runHead, LineFilter.arguments, LineFilter.options,
        selection_source h, selection_source h']
      cases countOf count with
      | error e => exact ⟨rfl, rfl⟩
      | ok n => cases ls <;> exact ⟨rfl, rfl⟩
  | tail count =>
      simp only [LineFilter.application, exec, runTail, LineFilter.arguments, LineFilter.options,
        selection_source h, selection_source h']
      cases countOf count with
      | error e => exact ⟨rfl, rfl⟩
      | ok n => cases ls <;> exact ⟨rfl, rfl⟩
  | sort reverse =>
      simp only [LineFilter.application, exec, runSort_source h, runSort_source h']
      exact ⟨rfl, rfl⟩
  | uniq ignoreCase =>
      simp only [LineFilter.application, exec, runUniq_source h, runUniq_source h']
      exact ⟨rfl, rfl⟩
  | cut positions =>
      simp only [LineFilter.application, exec, runCut_source h, runCut_source h']
      exact ⟨rfl, rfl⟩
  | _ => exact absurd ha (by simp [LineFilter.application])

end Sources

theorem alike_grep (h : FileOf w f lines) (pattern : Text) :
    (runGrep [.text pattern, .text f] w).Alike
      (runGrep [.text pattern, .list (lines.map .text)] w) := by
  have hflag : ∀ v v' : Value, refuseFlag .noFlags [.text pattern, v] =
      refuseFlag .noFlags [.text pattern, v'] := fun _ _ => rfl
  unfold runGrep
  rw [hflag (.text f) (.list (lines.map .text))]
  split
  · exact ⟨rfl, rfl⟩
  · have hfound : foundIn w (.text pattern) false (.text f) =
        Yield.each (found w.terminal (.text pattern) []) (lines.map .text) := by
      simp [foundIn, h.openFile]
    simp [sourceItems, Yield.each_singleton, hfound, Effect.Alike, Effect.ofYield]

theorem alike_cat (h : FileOf w f lines) :
    (runCat [.text f] w).Alike (runCat [.list (lines.map .text)] w) := by
  simp [runCat, Yield.each_singleton, h.openFile, Yield.ofExcept, Value.members, Effect.Alike,
    Effect.ofYield]

theorem runWc_file (h : FileOf w f lines) :
    (runWc [.text f] w).added =
        (runWc [.list (lines.map .text)] w).added.map (LineFilter.label f .wc) ∧
      (runWc [.text f] w).fault = (runWc [.list (lines.map .text)] w).fault := by
  unfold runWc
  simp only [(h.source h.openFile).accepted, h.list_source.accepted, sourceItems,
    Yield.each_singleton, h.openFile, counted]
  cases counts (lines.map .text) with
  | error e => exact ⟨rfl, rfl⟩
  | ok c => exact ⟨by simp [Effect.ofYield, LineFilter.label, Value.shown], rfl⟩

end Application

/-- A filter does with a file by its name what it does with its lines. -/
theorem LineFilter.exec_file (a : LineFilter) {w : World} {f : Text} {lines : List Text}
    (h : FileOf w f lines) :
    (a.application.exec (a.arguments (.text f)) w).added = (a.on lines w).added.map (a.label f) ∧
      (a.application.exec (a.arguments (.text f)) w).fault = (a.on lines w).fault := by
  have hid : ∀ {b : LineFilter}, b.label f = id → ∀ {e e' : Effect}, e.Alike e' →
      e.added = e'.added.map (b.label f) ∧ e.fault = e'.fault := by
    rintro b hb e e' ⟨hadded, hfault⟩
    rw [hb, List.map_id]
    exact ⟨hadded, hfault⟩
  cases a with
  | grep pattern => exact hid rfl (Application.alike_grep h pattern)
  | cat => exact hid rfl (Application.alike_cat h)
  | wc => exact Application.runWc_file h
  | _ =>
      exact hid rfl
        (Application.alike_source (h.source h.openFile) h.list_source (by simp [application]))

theorem LineFilter.on_cat (lines : List Text) (w : World) :
    cat.on lines w = .ofYield [.list (lines.map .text)] w ⟨lines.map .text, none⟩ := by
  simp [on, application, arguments, options, Application.exec, Application.runCat,
    Yield.each_singleton, Value.members]

/-- Why there is no value. -/
def Fault.ofExcept {α : Type} : Except Fault α → Option Fault
  | .ok _ => none
  | .error e => some e

/-- Why the options are refused, if they are. -/
def LineFilter.refusal : LineFilter → Option Fault
  | .head count | .tail count => Fault.ofExcept (Application.countOf count)
  | .cut positions => Fault.ofExcept (Application.Cutting.read (Value.text positions).members)
  | .grep pattern => Fault.ofExcept (Application.refuseFlag .noFlags [.text pattern])
  | .sort _ | .uniq _ | .wc | .cat => none

/-- Options are refused before the file is opened. -/
theorem LineFilter.exec_unreadable (a : LineFilter) {w : World} {f : Text} {e : Fault}
    (h : Unreadable w f e) :
    (a.application.exec (a.arguments (.text f)) w).added = [] ∧
      (a.application.exec (a.arguments (.text f)) w).fault = some (a.refusal.getD e) := by
  have hsource := h.source h.openFile
  cases a with
  | head count =>
      simp only [application, Application.exec, Application.runHead, arguments, options,
        Application.selection_source hsource, refusal]
      cases Application.countOf count <;> exact ⟨rfl, rfl⟩
  | tail count =>
      simp only [application, Application.exec, Application.runTail, arguments, options,
        Application.selection_source hsource, refusal]
      cases Application.countOf count <;> exact ⟨rfl, rfl⟩
  | sort reverse =>
      rw [application, Application.exec, Application.runSort_source hsource]
      exact ⟨rfl, rfl⟩
  | uniq ignoreCase =>
      rw [application, Application.exec, Application.runUniq_source hsource]
      exact ⟨rfl, rfl⟩
  | cut positions =>
      simp only [application, Application.exec, Application.runCut_source hsource, refusal]
      cases Application.Cutting.read (Value.text positions).members <;> exact ⟨rfl, rfl⟩
  | grep pattern =>
      have hflag : Application.refuseFlag .noFlags [.text pattern, .text f] =
          Application.refuseFlag .noFlags [.text pattern] := rfl
      have hfound : Application.foundIn w (.text pattern) false (.text f) = ⟨[], some e⟩ := by
        simp [Application.foundIn, h.openFile]
      simp only [application, Application.exec, arguments, options, List.map_cons, List.map_nil,
        List.cons_append, List.nil_append, Application.runGrep, hflag, refusal]
      cases Application.refuseFlag .noFlags [.text pattern] with
      | error e' => exact ⟨rfl, rfl⟩
      | ok _ =>
          simp [Application.sourceItems, Yield.each_singleton, hfound, Effect.ofYield,
            Fault.ofExcept]
  | wc =>
      simp [application, Application.exec, arguments, options, Application.runWc,
        hsource.accepted, Application.sourceItems, Yield.each_singleton, h.openFile,
        Effect.ofYield, refusal]
  | cat =>
      simp [application, Application.exec, arguments, options, Application.runCat,
        Yield.each_singleton, h.openFile, Yield.ofExcept, Effect.ofYield, refusal]

/-- No filter changes anything. -/
theorem LineFilter.world_exec (a : LineFilter) (args : List Value) (w : World) :
    (a.application.exec args w).world = w := by
  cases a with
  | head count => exact Application.world_runHead args w
  | tail count => exact Application.world_runTail args w
  | sort reverse => exact Application.world_runSort args w
  | uniq ignoreCase => exact Application.world_runUniq args w
  | cut positions => exact Application.world_runCut args w
  | grep pattern => exact Application.world_runGrep args w
  | wc => exact Application.world_runWc args w
  | cat => rfl

/-! ### Words and rows -/

namespace Command

theorem unquote_text {t : Text} (h : PlainWord t) : unquote (.text t) = .text t := by
  simp [unquote, Value.has, h.single, h.double]

theorem unquote_list {w : World} {f : Text} {lines : List Text} (h : FileOf w f lines) :
    unquote (.list (lines.map .text)) = .list (lines.map .text) := by
  have hquote : ∀ c, c ≠ '\n' → (Value.list (lines.map .text)).has c = false := by
    intro c hc
    simp only [Value.has, List.any_map, List.any_eq_false]
    intro l hl
    simpa [Value.isText] using h.ne_char hl hc
  simp [unquote, hquote Text.singleQuote (by decide), hquote Text.doubleQuote (by decide)]

theorem expandFrom_of_plain {row : Row} (h : ∀ v ∈ row, v.has '*' = false) (w : World) (n i : Nat)
    (hi : i + n ≤ row.length) : expandFrom w n i row = (row, none) := by
  induction n generalizing i with
  | zero => rfl
  | succ n ih =>
      have hlt : i < row.length := by omega
      have hstar := h row[i] (List.getElem_mem hlt)
      simp only [expandFrom, List.getElem?_eq_getElem hlt, hstar, Bool.false_eq_true, if_false]
      exact ih (i + 1) (by omega)

theorem expandRow_of_plain {row : Row} (h : ∀ v ∈ row, v.has '*' = false) (w : World) :
    expandRow w row = (row, none) := expandFrom_of_plain h w _ 0 (Nat.le_of_eq (Nat.zero_add _))

/-- What a command gives out, how it ends and what the world is then. -/
structure Outcome.Shows (o : Outcome) (out : List Value) (fault : Option Fault) (w : World) :
    Prop where
  gives : o.out = out
  ends : o.fault = fault
  leaves : o.world = w

/-- A call of one row without stars, once its input has been taken, is the run of that row. -/
theorem call_of_intake {w : World} {rows : List Row} {row : Row} {given input : List Value}
    {taken : Option Nat} (hi : takeInput w rows given = ⟨input, taken, none⟩)
    (hr : remaining rows taken = [row]) (hs : ∀ v ∈ row, v.has '*' = false) :
    (call rows given [] w).Shows (runRow row input w).added (runRow row input w).fault
      (runRow row input w).world := by
  have hexpand := expandRow_of_plain hs w
  simp only [call, hi, hr, expandRows, hexpand, List.headD_cons, List.nil_append]
  cases hf : (runRow row input w).fault with
  | some e => exact ⟨rfl, rfl, rfl⟩
  | none => exact ⟨rfl, rfl, rfl⟩

/-- A call whose input cannot be taken ends at once. -/
theorem call_of_fault {w : World} {rows : List Row} {given out : List Value} {e : Fault}
    (h : (takeInput w rows given).fault = some e) :
    (call rows given out w).Shows out (some e) w := by
  simp only [call, h]
  exact ⟨rfl, rfl, rfl⟩

theorem runPipe_last {w w' : World} {c : List Row} {input before out : List Value}
    {fault : Option Fault} (h : (call c [.list input] [] w).Shows out fault w') :
    (runPipe [c] input before w).Shows out fault w' := by
  simp only [runPipe]
  cases hf : (call c [.list input] [] w).fault with
  | some e => exact ⟨h.gives, hf.symm.trans h.ends, h.leaves⟩
  | none => exact ⟨h.gives, hf.symm.trans h.ends, h.leaves⟩

/-- What the first call gives out is the input of the others. -/
theorem runPipe_cons {w w₁ w₂ : World} {c : List Row} {cs : List (List Row)}
    {input before out₁ out₂ : List Value} {fault : Option Fault}
    (h : (call c [.list input] [] w).Shows out₁ none w₁)
    (hs : (runPipe cs out₁ out₁ w₁).Shows out₂ fault w₂) :
    (runPipe (c :: cs) input before w).Shows out₂ fault w₂ := by
  simp only [runPipe, h.ends, h.gives, h.leaves]
  exact ⟨hs.gives, hs.ends, hs.leaves⟩

/-- A pipe ends with the first call that fails. -/
theorem runPipe_fault {w w' : World} {c : List Row} {cs : List (List Row)}
    {input before out : List Value} {e : Fault}
    (h : (call c [.list input] [] w).Shows out (some e) w') :
    (runPipe (c :: cs) input before w).Shows out (some e) w' := by
  simp only [runPipe, h.ends]
  exact ⟨h.gives, rfl, h.leaves⟩

section Filters

variable {w : World} {f : Text} {lines : List Text} {e : Fault} {a : LineFilter}

/-- A row with the name of a filter runs it on the arguments that are made of its words and its
input. -/
theorem runRow_named {words input : List Value} {s : Value}
    (h : callArguments words input = a.arguments s) :
    runRow (.text a.application.name :: words) input w =
      a.application.exec (a.arguments s) w := by
  have hname : application (.text a.application.name) = .ok (a.application, false) := by
    cases a <;> rfl
  have htakes : a.application.arguments (a.arguments s) = .ok (a.arguments s) := by
    cases a with
    | head count | tail count => cases count <;> rfl
    | sort option | uniq option => cases option <;> rfl
    | _ => rfl
  simp only [runRow, hname, h, htakes, Bool.false_eq_true, if_false]

theorem runRow_words {more input : List Value} {s : Value}
    (h : callArguments (a.options.map .text ++ more) input = a.arguments s) :
    runRow (a.words ++ more) input w = a.application.exec (a.arguments s) w := by
  rw [LineFilter.words, List.map_cons, List.cons_append]
  exact runRow_named h

theorem unquote_options (ha : ∀ t ∈ a.options, PlainWord t) :
    (a.options.map Value.text).map unquote = a.options.map .text := by
  rw [List.map_map]
  exact List.map_congr_left fun t ht => unquote_text (ha t ht)

theorem star_words (ha : ∀ t ∈ a.options, PlainWord t) : ∀ v ∈ a.words, v.has '*' = false := by
  intro v hv
  obtain ⟨t, ht, rfl⟩ := List.mem_map.mp hv
  have hstar : '*' ∉ t := by
    rcases List.mem_cons.mp ht with rfl | ht
    · have hname : ∀ b : Application, '*' ∉ b.name := by
        intro b
        cases b <;> decide
      exact hname _
    · exact (ha t ht).star
  simpa [Value.has] using hstar

/-- The name of a filter is no sign of a redirection. -/
theorem takeInput_words (more : List Value) (rows : List Row) (input : List Value) :
    takeInput w ((a.words ++ more) :: rows) input = takeInputFrom w 1 none input rows := by
  have hname : (Value.text a.application.name).isText ['<'] = false := by cases a <;> rfl
  simp only [takeInput, LineFilter.words, List.map_cons, List.cons_append, takeInputFrom, hname,
    Bool.false_eq_true, if_false]

theorem callArguments_named (ha : ∀ t ∈ a.options, PlainWord t)
    (hf : unquote (.text f) = .text f) {input : List Value} (hi : input = [] ∨ input = [.list []]) :
    callArguments (a.options.map .text ++ [.text f]) input = a.arguments (.text f) := by
  have hmap :
      (a.options.map Value.text ++ [Value.text f]).map unquote = a.arguments (.text f) := by
    rw [List.map_append, unquote_options ha, List.map_singleton, hf]
    rfl
  rcases hi with rfl | rfl <;> exact hmap

/-- The file is named. No input is given, or none that holds anything. -/
theorem call_name (h : FileName f) (ha : ∀ t ∈ a.options, PlainWord t) {input : List Value}
    (hi : input = [] ∨ input = [.list []]) :
    (call [a.words ++ [.text f]] input [] w).Shows
      (a.application.exec (a.arguments (.text f)) w).added
      (a.application.exec (a.arguments (.text f)) w).fault w := by
  have hstar : ∀ v ∈ a.words ++ [Value.text f], v.has '*' = false := by
    intro v hv
    rcases List.mem_append.mp hv with hv | hv
    · exact star_words ha v hv
    · rw [List.mem_singleton.mp hv]
      simpa [Value.has] using h.plain.star
  have hcall := call_of_intake (w := w) (takeInput_words [.text f] [] input) rfl hstar
  rw [runRow_words (callArguments_named ha (unquote_text h.plain) hi)] at hcall
  exact ⟨hcall.gives, hcall.ends, hcall.leaves.trans (a.world_exec _ w)⟩

theorem call_named (h : FileOf w f lines) (ha : ∀ t ∈ a.options, PlainWord t) {input : List Value}
    (hi : input = [] ∨ input = [.list []]) :
    (call [a.words ++ [.text f]] input [] w).Shows ((a.on lines w).added.map (a.label f))
      (a.on lines w).fault w := by
  have hcall := call_name (w := w) h.toFileName ha hi
  obtain ⟨hadded, hfault⟩ := a.exec_file h
  rwa [hadded, hfault] at hcall

theorem call_named_unreadable (h : Unreadable w f e) (ha : ∀ t ∈ a.options, PlainWord t)
    {input : List Value} (hi : input = [] ∨ input = [.list []]) :
    (call [a.words ++ [.text f]] input [] w).Shows [] (some (a.refusal.getD e)) w := by
  have hcall := call_name (w := w) h.toFileName ha hi
  obtain ⟨hadded, hfault⟩ := a.exec_unreadable h
  rwa [hadded, hfault] at hcall

/-- The lines are given as input. -/
theorem runRow_given (h : FileOf w f lines) (ha : ∀ t ∈ a.options, PlainWord t) :
    runRow a.words [.list (lines.map .text)] w = a.on lines w := by
  have hsize : (Value.list (lines.map .text)).size ≠ 0 := by simpa [Value.size] using h.nonempty
  have hargs : callArguments (a.options.map .text ++ []) [.list (lines.map .text)] =
      a.arguments (.list (lines.map .text)) := by
    simp only [callArguments, if_neg hsize, List.append_nil, List.map_append, unquote_options ha,
      List.map_cons, List.map_nil, unquote_list h]
    rfl
  have hrow := runRow_words (w := w) hargs
  rwa [List.append_nil] at hrow

theorem call_given (h : FileOf w f lines) (ha : ∀ t ∈ a.options, PlainWord t) {rows : List Row}
    {given : List Value} {taken : Option Nat}
    (hi : takeInput w rows given = ⟨[.list (lines.map .text)], taken, none⟩)
    (hr : remaining rows taken = [a.words]) :
    (call rows given [] w).Shows (a.on lines w).added (a.on lines w).fault w := by
  have hcall := call_of_intake hi hr (star_words ha)
  rw [runRow_given h ha] at hcall
  exact ⟨hcall.gives, hcall.ends, hcall.leaves.trans (a.world_exec _ w)⟩

theorem decode_two (f : Text) (a : LineFilter) :
    decode [LineFilter.cat.words ++ [.text f], a.words] =
      ⟨[[LineFilter.cat.words ++ [.text f]], [a.words]], none⟩ := by
  have hname : namesApplication (.text a.application.name) = true := by cases a <;> rfl
  simp only [decode, LineFilter.words, List.map_cons, decodeAfter, hname, if_true]

theorem takeInput_redirected (w : World) (f : Text) (a : LineFilter) :
    takeInput w [a.words, [.text ['<'], .text f]] [] =
      takeInputFrom w 1 none [] [[.text ['<'], .text f]] := by
  have hwords := takeInput_words (w := w) (a := a) [] [[.text ['<'], .text f]] []
  rwa [List.append_nil] at hwords

theorem call_redirected (h : FileOf w f lines) (ha : ∀ t ∈ a.options, PlainWord t) :
    (call [a.words, [.text ['<'], .text f]] [] [] w).Shows (a.on lines w).added
      (a.on lines w).fault w := by
  have hintake : takeInput w [a.words, [.text ['<'], .text f]] [] =
      ⟨[.list (lines.map .text)], some 1, none⟩ := by
    have hsign : (Value.text ['<']).isText ['<'] = true := rfl
    simp only [takeInput_redirected, takeInputFrom, hsign, if_true, h.openFile, List.nil_append]
  exact call_given h ha hintake rfl

theorem call_redirected_unreadable (h : Unreadable w f e) (a : LineFilter) :
    (call [a.words, [.text ['<'], .text f]] [] [] w).Shows [] (some e) w := by
  apply call_of_fault
  have hsign : (Value.text ['<']).isText ['<'] = true := rfl
  simp only [takeInput_redirected, takeInputFrom, hsign, if_true, h.openFile]

theorem runPipe_cat (h : FileOf w f lines) (ha : ∀ t ∈ a.options, PlainWord t) :
    (runPipe [[LineFilter.cat.words ++ [.text f]], [a.words]] [] [] w).Shows (a.on lines w).added
      (a.on lines w).fault w := by
  have hcat : (call [LineFilter.cat.words ++ [.text f]] [.list []] [] w).Shows
      (lines.map .text) none w := by
    have hnamed := call_named (a := .cat) h (by simp [LineFilter.options]) (Or.inr rfl)
    rw [LineFilter.on_cat] at hnamed
    have hlabel : LineFilter.cat.label f = id := rfl
    rwa [hlabel, List.map_id] at hnamed
  have hlast : (call [a.words] [.list (lines.map .text)] [] w).Shows (a.on lines w).added
      (a.on lines w).fault w := by
    have hintake := takeInput_words (w := w) (a := a) [] [] [.list (lines.map .text)]
    rw [List.append_nil] at hintake
    exact call_given h ha hintake rfl
  exact runPipe_cons hcat (runPipe_last hlast)

theorem runPipe_cat_unreadable (h : Unreadable w f e) (a : LineFilter) :
    (runPipe [[LineFilter.cat.words ++ [.text f]], [a.words]] [] [] w).Shows [] (some e) w :=
  runPipe_fault (call_named_unreadable (a := .cat) h (by simp [LineFilter.options]) (Or.inr rfl))

theorem run_pipe_cat {w' : World} {out : List Value} {fault : Option Fault}
    (h : (runPipe [[LineFilter.cat.words ++ [.text f]], [a.words]] [] [] w).Shows out fault w') :
    (run .pipe [[.text "cat".toList, .text f], a.words] [] [] w).Shows out fault w' := by
  have hdecode := decode_two f a
  change decode [[.text "cat".toList, .text f], a.words] = _ at hdecode
  simp only [run, hdecode, withLeft]
  exact ⟨h.gives, h.ends, h.leaves⟩

end Filters

end Command

/-- A filter that is given the name of a file, that file as its input, or the output of a call that
gives out that file, changes nothing. If the file has whole lines it ends in the same way each time
and gives out the same but for the name before a count. If the file cannot be read nothing is given
out, and the end differs at most in that the options are refused where the file is named. -/
theorem filter_paths_agree (a : LineFilter) (w : World) (f : Text)
    (ha : ∀ t ∈ a.options, PlainWord t) :
    (∀ lines, FileOf w f lines →
      (Command.run .call [a.words ++ [.text f]] [] [] w).Shows
          ((a.on lines w).added.map (a.label f)) (a.on lines w).fault w ∧
        (Command.run .call [a.words, [.text ['<'], .text f]] [] [] w).Shows
          (a.on lines w).added (a.on lines w).fault w ∧
        (Command.run .pipe [[.text "cat".toList, .text f], a.words] [] [] w).Shows
          (a.on lines w).added (a.on lines w).fault w) ∧
    (∀ e, Unreadable w f e →
      (Command.run .call [a.words ++ [.text f]] [] [] w).Shows [] (some (a.refusal.getD e)) w ∧
        (Command.run .call [a.words, [.text ['<'], .text f]] [] [] w).Shows [] (some e) w ∧
        (Command.run .pipe [[.text "cat".toList, .text f], a.words] [] [] w).Shows
          [] (some e) w) := by
  constructor
  · intro lines h
    refine ⟨Command.call_named h ha (Or.inl rfl), Command.call_redirected h ha, ?_⟩
    exact Command.run_pipe_cat (Command.runPipe_cat h ha)
  · intro e h
    refine ⟨Command.call_named_unreadable h ha (Or.inl rfl), ?_, ?_⟩
    · exact Command.call_redirected_unreadable h a
    · exact Command.run_pipe_cat (Command.runPipe_cat_unreadable h a)

/-- Files with a dash on one line and a quote on the other, and with an octet that starts no
character. -/
def World.odd : World :=
  { root := .folder [
      ("f".toList, .file (.text ['-', '\n', Text.singleQuote, '\n'])),
      ("g".toList, .file (.octets [97, 255, 98, 10]))]
    top := []
    here := []
    terminal := false
    printed := []
    warned := [] }

/-- Lines that look like a flag or a quotation are lines like others. -/
theorem filter_paths_agree_odd :
    (FileOf World.odd "f".toList [['-', '\n'], [Text.singleQuote, '\n']] ∧
      (Command.run .call [LineFilter.wc.words ++ [.text "f".toList]] [] [] World.odd).out =
        [.text "f:2:2:4".toList] ∧
      (Command.run .call [LineFilter.wc.words, [.text ['<'], .text "f".toList]] [] []
        World.odd).out = [.text "2:2:4".toList] ∧
      (Command.run .pipe [[.text "cat".toList, .text "f".toList], LineFilter.wc.words] [] []
        World.odd).out = [.text "2:2:4".toList]) ∧
    (Unreadable World.odd "g".toList (.decoding ⟨.badStart, 1, [255]⟩) ∧
      (Command.run .call [(LineFilter.tail none).words ++ [.text "g".toList]] [] []
        World.odd).fault = some (.decoding ⟨.badStart, 1, [255]⟩)) := by
  have hf : FileOf World.odd "f".toList [['-', '\n'], [Text.singleQuote, '\n']] :=
    ⟨⟨⟨by decide, by decide, by decide, by decide⟩, by decide⟩, by decide +kernel, by decide,
      by decide⟩
  have hg : Unreadable World.odd "g".toList (.decoding ⟨.badStart, 1, [255]⟩) :=
    ⟨⟨⟨by decide, by decide, by decide, by decide⟩, by decide⟩, by decide +kernel⟩
  obtain ⟨hnamed, hredirected, hpiped⟩ :=
    (filter_paths_agree .wc World.odd "f".toList (by simp [LineFilter.options])).1 _ hf
  have hfails := (filter_paths_agree (.tail none) World.odd "g".toList
    (by simp [LineFilter.options, LineFilter.countOptions])).2 _ hg
  refine ⟨⟨hf, ?_, ?_, ?_⟩, hg, hfails.1.ends⟩
  · exact hnamed.gives.trans (by decide +kernel)
  · exact hredirected.gives.trans (by decide +kernel)
  · exact hpiped.gives.trans (by decide +kernel)

/-- A count that is none, and a file with an octet that starts no character, though its line ends
with a line break: the paths end with different faults. -/
theorem filter_paths_differ_octets :
    FileName "g".toList ∧ World.odd.entryAt "g".toList = .ok (.file (.octets [97, 255, 98, 10])) ∧
      (∀ t ∈ (LineFilter.head (some "x".toList)).options, PlainWord t) ∧
      (Command.run .call [(LineFilter.head (some "x".toList)).words ++ [.text "g".toList]] [] []
        World.odd).fault = some (.integer (.invalid "x".toList)) ∧
      (Command.run .call [(LineFilter.head (some "x".toList)).words,
        [.text ['<'], .text "g".toList]] [] [] World.odd).fault =
          some (.decoding ⟨.badStart, 1, [255]⟩) ∧
      (Command.run .pipe [[.text "cat".toList, .text "g".toList],
        (LineFilter.head (some "x".toList)).words] [] [] World.odd).fault =
          some (.decoding ⟨.badStart, 1, [255]⟩) := by
  refine ⟨⟨⟨by decide, by decide, by decide, by decide⟩, by decide⟩, rfl, ?_,
    by decide +kernel, by decide +kernel, by decide +kernel⟩
  intro t ht
  rcases List.mem_cons.mp ht with rfl | ht
  · exact ⟨by decide, by decide, by decide, by decide⟩
  · rw [List.mem_singleton.mp ht]
    exact ⟨by decide, by decide, by decide, by decide⟩

end CommandShell
