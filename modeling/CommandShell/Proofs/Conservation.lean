import CommandShell.Proofs.Ending
import CommandShell.Proofs.Reading
import CommandShell.Proofs.Tokens

/-! # No token is lost

Whatever is wrong with a text, every token that is read or passed over becomes one leaf of the
tree and one event, in the order of the text. A step is made of a few strokes; what each of them
does to the tokens is said once, and holds of every reading from its start to its end. -/

namespace CommandShell

namespace Event

/-- The rules that are open after an event. A rule can be left only if it is the one that was
entered last. -/
def follow (opened : List Rule) : Event → Option (List Rule)
  | .enter r => some (r :: opened)
  | .leave r =>
      match opened with
      | s :: rest => if s = r then some rest else none
      | [] => none
  | .leaf _ | .skipped _ => some opened

/-- The rules that are open after a list of events, if every rule that is left was open. -/
def opened (es : List Event) : Option (List Rule) := es.foldlM follow []

/-- Every rule that is entered is left, in the order of brackets. -/
def Bracketed (es : List Event) : Prop := opened es = some []

instance (es : List Event) : Decidable (Bracketed es) := inferInstanceAs (Decidable (_ = _))

theorem opened_append (es fs : List Event) :
    opened (es ++ fs) = (opened es).bind fun rs => fs.foldlM follow rs := by
  unfold opened
  rw [List.foldlM_append]
  rfl

/-- The text of the token that an event is about. -/
def text? : Event → Option Text
  | .leaf t | .skipped t => some t
  | .enter _ | .leave _ => none

end Event

namespace Parse

open CommandShell.Tree Relation

namespace Machine

/-- What a step is made of, when only some items may be supposed or entered. -/
inductive Stroke (may : Item → Prop) (m : Machine) : Machine → Prop
  | setTodo (todo : List Item) : Stroke may m (m.setTodo todo)
  | settle : Stroke may m m.settle
  | complain (t : Token) (trouble : Trouble) : Stroke may m (m.complainAt t trouble)
  | note (givenUp : Option (Nat × List Site)) : Stroke may m { m with givenUp := givenUp }
  | consume (hs : m.stack ≠ []) : Stroke may m m.consume
  | suppose (k : Kind) (hk : may (.token k)) : Stroke may m (m.addKid (.missing k))
  | leave (hs : m.stack ≠ []) : Stroke may m m.leave
  | fold : Stroke may m m.fold
  | enter (r : Rule) (level : Nat) (hs : m.stack ≠ []) (hr : may (.rule r level)) :
      Stroke may m (m.enter r level)

/-- One stroke after another. -/
abbrev Strokes (may : Item → Prop) : Machine → Machine → Prop := ReflTransGen (Stroke may)

section Strokes

variable {m m' : Machine} {may : Item → Prop}

@[simp] theorem stack_complainAt (m : Machine) (t : Token) (trouble : Trouble) :
    (m.complainAt t trouble).stack = m.stack := by
  unfold complainAt
  split <;> rfl

/-- The leaf that a token becomes. -/
def grown (m : Machine) : Tree := if m.recovering then .skipped m.token else .leaf m.token

/-- The event that a token causes. -/
def noted (m : Machine) : Event :=
  if m.recovering then .skipped m.token.text else .leaf m.token.text

theorem consume_of_stack {f : Frame} {fs : List Frame} (hs : m.stack = f :: fs) :
    m.consume =
      { m with
        stack := { f with kids := f.kids ++ [m.grown] } :: fs
        rest := m.rest.drop 1
        count := if m.rest.isEmpty then m.count else m.count + 1
        events := m.noted :: m.events } := by
  cases hr : m.recovering <;> simp [consume, addKid, hs, hr, grown, noted]

theorem addKid_of_stack {f : Frame} {fs : List Frame} (hs : m.stack = f :: fs) (t : Tree) :
    m.addKid t = { m with stack := { f with kids := f.kids ++ [t] } :: fs } := by
  simp [addKid, hs]

theorem fold_eq_of_stack {f : Frame} {fs : List Frame} (hs : m.stack = f :: fs) :
    m.fold =
      { m with
        stack := { f with kids := [.node f.rule f.kids] } :: fs
        events := .enter f.rule :: .leave f.rule :: m.events } := by
  simp [fold, hs]

theorem stack_consume_ne_nil (h : m.stack ≠ []) : m.consume.stack ≠ [] := by
  obtain ⟨f, fs, hs⟩ := List.exists_cons_of_ne_nil h
  simp [consume_of_stack hs]

theorem strokes_skipUntil (ks : List Kind) (ts : List Token) (h : m.stack ≠ []) :
    Strokes may m (skipUntil ks ts m) ∧ (skipUntil ks ts m).stack ≠ [] := by
  induction ts generalizing m with
  | nil => exact ⟨ReflTransGen.refl, h⟩
  | cons t ts ih =>
      unfold skipUntil
      split
      · exact ⟨ReflTransGen.refl, h⟩
      · obtain ⟨hstrokes, hs⟩ := ih (stack_consume_ne_nil h)
        exact ⟨ReflTransGen.head (Stroke.consume h) hstrokes, hs⟩

theorem strokes_giveUp (h : m.stack ≠ []) : Strokes may m m.giveUp := by
  have hskip : ∀ (m' : Machine) (givenUp : Option (Nat × List Site)), m'.stack ≠ [] →
      Strokes may m' (skipUntil m'.resume m'.rest { m' with givenUp := givenUp }).leave := by
    intro m' givenUp hm
    obtain ⟨hstrokes, hs⟩ :=
      strokes_skipUntil m'.resume m'.rest (m := { m' with givenUp := givenUp }) hm
    exact ReflTransGen.head (Stroke.note givenUp) (hstrokes.tail (Stroke.leave hs))
  rw [giveUp_eq m _ rfl]
  split
  · exact ReflTransGen.head (Stroke.consume h) (hskip _ _ (stack_consume_ne_nil h))
  · exact hskip _ _ h

theorem strokes_failMismatched (h : m.stack ≠ []) : Strokes may m m.failMismatched :=
  ReflTransGen.head (Stroke.complain _ _) (strokes_giveUp (by simpa using h))

theorem strokes_failNoWay (h : m.stack ≠ []) (offset : Nat) : Strokes may m (m.failNoWay offset) :=
  ReflTransGen.head (Stroke.complain _ _) (strokes_giveUp (by simpa using h))

theorem strokes_drop? (h : m.stack ≠ []) (hm : m.drop? = some m') :
    Strokes may m m' ∧ m'.stack ≠ [] := by
  unfold drop? at hm
  split at hm
  · obtain rfl := Option.some.inj hm
    have hs : (m.complain (.extraneous m.token.text m.expected)).stack ≠ [] := by
      simpa [complain] using h
    refine ⟨?_, stack_consume_ne_nil hs⟩
    exact ((ReflTransGen.single (Stroke.complain _ _)).tail (Stroke.consume hs)).tail Stroke.settle
  · cases hm

theorem strokes_supposed {ts : List Tree} (hts : ∀ t ∈ ts, ∃ k, may (.token k) ∧ t = .missing k)
    (m : Machine) :
    Strokes may m (ts.foldl addKid m) := by
  induction ts generalizing m with
  | nil => exact ReflTransGen.refl
  | cons t ts ih =>
      obtain ⟨k, hk, rfl⟩ := hts t (by simp)
      exact ReflTransGen.head (Stroke.suppose k hk) (ih (fun u hu => hts u (by simp [hu])) _)

theorem strokes_accept (h : m.stack ≠ []) (ks : List Kind) {supposed : List Tree}
    (hsup : ∀ t ∈ supposed, ∃ k, may (.token k) ∧ t = .missing k) (rest : List Item) :
    Strokes may m (m.accept ks supposed rest) := by
  unfold accept
  split
  · have hs : m.settle.stack ≠ [] := h
    exact ((ReflTransGen.single Stroke.settle).tail (Stroke.consume hs)).tail (Stroke.setTodo rest)
  · split
    · next m' hm =>
        obtain ⟨hdrop, hs⟩ := strokes_drop? h hm
        exact (hdrop.tail (Stroke.consume hs)).tail (Stroke.setTodo rest)
    · split
      · have hcomplain : Strokes may m (m.complain (.missing m.expected m.token.text)) :=
          ReflTransGen.single (Stroke.complain _ _)
        exact (hcomplain.trans (strokes_supposed hsup _)).tail (Stroke.setTodo rest)
      · exact strokes_failMismatched h

theorem strokes_check {afterRound : Bool} {go : Machine → Machine} (h : m.stack ≠ [])
    (hgo : ∀ m' : Machine, m'.stack ≠ [] → Strokes may m' (go m')) :
    Strokes may m (m.check afterRound go) := by
  unfold check
  split
  · exact hgo m h
  · split
    · have hs : (m.complain (.extraneous m.token.text m.expected)).stack ≠ [] := by
        simpa [complain] using h
      obtain ⟨hskip, hs'⟩ := strokes_skipUntil _ _ hs
      exact ReflTransGen.head (Stroke.complain _ _) (hskip.trans (hgo _ hs'))
    · split
      · next m' hm =>
          obtain ⟨hdrop, hs⟩ := strokes_drop? h hm
          exact hdrop.trans (hgo m' hs)
      · exact strokes_failMismatched h

theorem strokes_take (h : m.stack ≠ []) (ways : List (List Item)) (f : Forecast) :
    Strokes may m (m.take ways f) := by
  cases f with
  | stuck offset => exact strokes_failNoWay h offset
  | way n => exact ReflTransGen.single (Stroke.setTodo _)

/-- The item that is treated next. -/
def awaits (m : Machine) (x : Item) : Prop := m.top.head? = some x

/-- Only the item that is treated is supposed or entered. -/
theorem strokes_step (m : Machine) : Strokes m.awaits m m.step := by
  unfold step
  split
  · exact ReflTransGen.refl
  · next f fs hs =>
      have h : m.stack ≠ [] := by simp [hs]
      split
      · exact ReflTransGen.single (Stroke.leave h)
      · next k rest ht => exact strokes_accept h _ (by simp [awaits, top, hs, ht]) _
      · exact strokes_accept h _ (by simp) _
      · next r level rest ht =>
          refine (ReflTransGen.single (Stroke.setTodo rest)).tail (Stroke.enter r level ?_ ?_)
          · simp [setTodo, hs]
          · simp [awaits, top, hs, ht]
      · next limit rest ht =>
          exact (ReflTransGen.single Stroke.fold).tail (Stroke.setTodo rest)
      · exact strokes_check h fun m' hm => strokes_take hm _ _
      · exact strokes_check h fun m' hm => strokes_take hm _ _
      · exact strokes_check h fun m' hm => ReflTransGen.single (Stroke.setTodo _)
      · exact strokes_check h fun m' hm => ReflTransGen.single (Stroke.setTodo _)

theorem Stroke.mono {may' : Item → Prop} (hmay : ∀ x, may x → may' x) (h : Stroke may m m') :
    Stroke may' m m' := by
  cases h with
  | setTodo todo => exact .setTodo todo
  | settle => exact .settle
  | complain t trouble => exact .complain t trouble
  | note givenUp => exact .note givenUp
  | consume hs => exact .consume hs
  | suppose k hk => exact .suppose k (hmay _ hk)
  | leave hs => exact .leave hs
  | fold => exact .fold
  | enter r level hs hr => exact .enter r level hs (hmay _ hr)

theorem strokes_run (n : Nat) (m : Machine) : Strokes (fun _ => True) m (m.run n) := by
  induction n generalizing m with
  | zero => exact ReflTransGen.refl
  | succ n ih =>
      unfold run
      split
      · exact ReflTransGen.refl
      · have hstep : Strokes (fun _ => True) m m.step :=
          ReflTransGen.mono (fun _ _ => Stroke.mono fun _ _ => trivial) _ _ (strokes_step m)
        exact hstep.trans (ih m.step)

end Strokes

end Machine

/-- Is a token one of the text and not its end? -/
def real (t : Token) : Bool := t.kind ≠ .finish

/-- The texts of the tokens that events are about. -/
def eventTexts (es : List Event) : List Text := es.filterMap Event.text?

/-- What holds of the tokens at any time of a reading. -/
structure Conserved (text : Text) (m : Machine) : Prop where
  finish : m.finish = Token.finish text
  count : m.count + m.rest.length = (Token.scan text).length
  result : m.stack ≠ [] ↔ m.result = none
  tokens : (stackTokens m.stack ++ (m.result.map Tree.tokens).getD []).filter real ++ m.rest =
    Token.scan text
  texts : (eventTexts m.events.reverse).filter (· ≠ (Token.finish text).text) ++
    m.rest.map Token.text = (Token.scan text).map Token.text
  brackets : Event.opened m.events.reverse = some (m.stack.map Frame.rule)

theorem conserved_start (r : Rule) (text : Text) : Conserved text (Machine.start r text) where
  finish := rfl
  count := Nat.zero_add _
  result := by simp [Machine.start]
  tokens := rfl
  texts := rfl
  brackets := rfl

theorem stackTokens_cons (f : Frame) (fs : List Frame) :
    stackTokens (f :: fs) = stackTokens fs ++ tokensAll f.kids := rfl

theorem real_of_mem_scan {text : Text} {t : Token} (ht : t ∈ Token.scan text) : real t = true := by
  have hp := (Token.lexed_scan text).proper t ht
  obtain ⟨c, hc⟩ := List.exists_mem_of_ne_nil t.text hp.nonempty
  have hk : t.kind ≠ .finish := by
    rw [← hp.chars c hc]
    exact Kind.ofChar_ne_finish c
  simpa [real] using hk

/-- No token reads as the end of the text does: that text starts with a mark and is longer. -/
theorem text_ne_of_mem_scan {text : Text} {t : Token} (ht : t ∈ Token.scan text) :
    t.text ≠ (Token.finish text).text := by
  intro h
  have he : t.text = "<EOF>".toList := h
  have hp := (Token.lexed_scan text).proper t ht
  have hc : '<' ∈ t.text := by
    rw [he]
    decide
  have hk : t.kind = .less := (hp.chars _ hc).symm
  have hlen := hp.mark (by rw [hk]; rfl)
  rw [he] at hlen
  exact absurd hlen (by decide)

namespace Conserved

variable {text : Text} {m m' : Machine}

/-- A stroke that reads nothing. -/
theorem of_kept (h : Conserved text m) (hs : m.stack ≠ []) (hs' : m'.stack ≠ [])
    (hfinish : m'.finish = m.finish) (hrest : m'.rest = m.rest) (hcount : m'.count = m.count)
    (hresult : m'.result = m.result) (hstack : stackTokens m'.stack = stackTokens m.stack)
    (htexts : eventTexts m'.events.reverse = eventTexts m.events.reverse)
    (hbrackets : Event.opened m'.events.reverse = some (m'.stack.map Frame.rule)) :
    Conserved text m' where
  finish := by rw [hfinish, h.finish]
  count := by rw [hcount, hrest, h.count]
  result := by
    rw [hresult]
    exact ⟨fun _ => h.result.mp hs, fun _ => hs'⟩
  tokens := by rw [hstack, hresult, hrest, h.tokens]
  texts := by rw [htexts, hrest, h.texts]
  brackets := hbrackets

theorem setTodo (h : Conserved text m) (todo : List Item) : Conserved text (m.setTodo todo) := by
  cases hs : m.stack with
  | nil => simpa [Machine.setTodo, hs] using h
  | cons f fs =>
      have hb := h.brackets
      rw [hs] at hb
      rw [Machine.setTodo_of_stack hs]
      exact h.of_kept (by simp [hs]) (by simp) rfl rfl rfl rfl (by rw [hs]; rfl) rfl hb

theorem complain (h : Conserved text m) (t : Token) (trouble : Trouble) :
    Conserved text (m.complainAt t trouble) := by
  unfold Machine.complainAt
  split
  · exact h
  · exact ⟨h.finish, h.count, h.result, h.tokens, h.texts, h.brackets⟩

theorem suppose (h : Conserved text m) (k : Kind) : Conserved text (m.addKid (.missing k)) := by
  cases hs : m.stack with
  | nil => simpa [Machine.addKid, hs] using h
  | cons f fs =>
      have hb := h.brackets
      rw [hs] at hb
      rw [Machine.addKid_of_stack hs]
      refine h.of_kept (by simp [hs]) (by simp) rfl rfl rfl rfl ?_ rfl hb
      rw [hs, stackTokens_cons, stackTokens_cons, tokensAll_append]
      simp

theorem fold (h : Conserved text m) : Conserved text m.fold := by
  cases hs : m.stack with
  | nil => simpa [Machine.fold, hs] using h
  | cons f fs =>
      have hb := h.brackets
      rw [hs] at hb
      rw [Machine.fold_eq_of_stack hs]
      refine h.of_kept (by simp [hs]) (by simp) rfl rfl rfl rfl ?_ ?_ ?_
      · rw [hs, stackTokens_cons, stackTokens_cons]
        simp
      · simp [eventTexts, Event.text?]
      · simp [Event.opened_append, hb, Event.follow]

theorem enter (h : Conserved text m) (hs : m.stack ≠ []) (r : Rule) (level : Nat) :
    Conserved text (m.enter r level) := by
  refine h.of_kept hs (by simp [Machine.enter]) rfl rfl rfl rfl ?_ ?_ ?_
  · simp [Machine.enter, stackTokens_cons]
  · simp [Machine.enter, eventTexts, Event.text?]
  · simp [Machine.enter, Event.opened_append, h.brackets, Event.follow]

theorem leave (h : Conserved text m) (hs : m.stack ≠ []) : Conserved text m.leave := by
  obtain ⟨f, fs, hs⟩ := List.exists_cons_of_ne_nil hs
  have hb := h.brackets
  rw [hs] at hb
  cases fs with
  | nil =>
      have hnone := h.result.mp (by simp [hs])
      have htok := h.tokens
      rw [hnone, hs] at htok
      rw [Machine.leave_of_last hs]
      refine ⟨h.finish, h.count, by simp, ?_, ?_, ?_⟩
      · simpa [stackTokens] using htok
      · simpa [eventTexts, List.filterMap_cons, Event.text?] using h.texts
      · simp [Event.opened_append, hb, Event.follow]
  | cons g gs =>
      rw [Machine.leave_of_stack hs]
      refine h.of_kept (by simp [hs]) (by simp) rfl rfl rfl rfl ?_ ?_ ?_
      · rw [hs, stackTokens_cons, stackTokens_cons, stackTokens_cons, tokensAll_append]
        simp
      · simp [eventTexts, Event.text?]
      · simp [Event.opened_append, hb, Event.follow]

/-- The next token is the first of those still to be read, unless it is the end of the text. -/
theorem token_rest (h : Conserved text m) :
    [m.token].filter real ++ m.rest.drop 1 = m.rest ∧
      [m.token.text].filter (· ≠ (Token.finish text).text) ++ (m.rest.drop 1).map Token.text =
        m.rest.map Token.text := by
  cases hr : m.rest with
  | nil =>
      have hfinish : m.token = Token.finish text := by simp [Machine.token, hr, h.finish]
      rw [hfinish]
      simp [real, Token.finish]
  | cons t ts =>
      have htoken : m.token = t := by simp [Machine.token, hr]
      have hmem : t ∈ Token.scan text := by
        rw [← h.tokens, hr]
        simp
      rw [htoken]
      simp [real_of_mem_scan hmem, text_ne_of_mem_scan hmem]

theorem consume (h : Conserved text m) (hs : m.stack ≠ []) : Conserved text m.consume := by
  obtain ⟨f, fs, hs⟩ := List.exists_cons_of_ne_nil hs
  have hnone := h.result.mp (by simp [hs])
  have hb := h.brackets
  rw [hs] at hb
  obtain ⟨hrest, htexts⟩ := h.token_rest
  have hgrown : tokensAll [m.grown] = [m.token] := by
    cases hr : m.recovering <;> simp [Machine.grown, hr]
  have hnoted : eventTexts [m.noted] = [m.token.text] := by
    cases hr : m.recovering <;> simp [Machine.noted, hr, eventTexts, Event.text?]
  have hfollow : Event.follow (f.rule :: fs.map Frame.rule) m.noted =
      some (f.rule :: fs.map Frame.rule) := by
    cases hr : m.recovering <;> simp [Machine.noted, hr, Event.follow]
  rw [Machine.consume_of_stack hs]
  refine ⟨h.finish, ?_, by simp [hnone], ?_, ?_, ?_⟩
  · have hcount := h.count
    cases hr : m.rest <;> simp [hr] at hcount ⊢ <;> omega
  · have htok := h.tokens
    rw [hnone, hs, ← hrest] at htok
    simpa [stackTokens_cons, tokensAll_append, hgrown, hnone] using htok
  · have htext := h.texts
    rw [← htexts] at htext
    rw [List.reverse_cons, eventTexts, List.filterMap_append, List.filter_append]
    change _ ++ List.filter _ (eventTexts [m.noted]) ++ _ = _
    rw [hnoted, List.append_assoc]
    exact htext
  · simp [Event.opened_append, hb, hfollow]

theorem stroke {may : Item → Prop} (h : Conserved text m) (hm : Machine.Stroke may m m') :
    Conserved text m' := by
  cases hm with
  | setTodo todo => exact h.setTodo todo
  | settle => exact ⟨h.finish, h.count, h.result, h.tokens, h.texts, h.brackets⟩
  | complain t trouble => exact h.complain t trouble
  | note givenUp => exact ⟨h.finish, h.count, h.result, h.tokens, h.texts, h.brackets⟩
  | consume hs => exact h.consume hs
  | suppose k _ => exact h.suppose k
  | leave hs => exact h.leave hs
  | fold => exact h.fold
  | enter r level hs _ => exact h.enter hs r level

theorem strokes {may : Item → Prop} (h : Conserved text m) (hm : Machine.Strokes may m m') :
    Conserved text m' := by
  induction hm with
  | refl => exact h
  | tail _ hstroke ih => exact ih.stroke hstroke

end Conserved

/-- At its end a reading has a tree, and what it has read are the tokens that it has counted. -/
theorem Conserved.at_end {text : Text} {m : Machine} (h : Conserved text m) (hs : m.stack = []) :
    ∃ t, m.result = some t ∧ t.tokens.filter real = (Token.scan text).take m.count ∧
      (eventTexts m.events.reverse).filter (· ≠ (Token.finish text).text) =
        ((Token.scan text).take m.count).map Token.text := by
  obtain ⟨t, ht⟩ : ∃ t, m.result = some t :=
    Option.ne_none_iff_exists'.mp fun hnone => absurd hs (h.result.mpr hnone)
  have htokens := h.tokens
  rw [hs, ht] at htokens
  have hlen : (t.tokens.filter real).length = m.count := by
    have hcount := h.count
    rw [← htokens] at hcount
    simpa [stackTokens] using hcount.symm
  have htake : (Token.scan text).take m.count = t.tokens.filter real := by
    rw [← htokens, ← hlen]
    exact List.take_left
  refine ⟨t, ht, htake.symm, ?_⟩
  have htexts := h.texts
  rw [← htokens, List.map_append] at htexts
  rw [htake]
  exact List.append_cancel_right htexts

/-- Every token up to where a reading stops becomes one leaf of the tree and one event, in the order
of the text, and rules are left in the opposite order of entering them, for every rule and every
text. -/
theorem read_conserves (r : Rule) (text : Text) :
    (read r text).next ≤ (Token.scan text).length ∧
      (read r text).tree.tokens.filter real = (Token.scan text).take (read r text).next ∧
      (eventTexts (read r text).events).filter (· ≠ (Token.finish text).text) =
        ((Token.scan text).take (read r text).next).map Token.text ∧
      Event.Bracketed (read r text).events := by
  have h := (conserved_start r text).strokes
    (Machine.strokes_run (bound (Token.scan text).length) (Machine.start r text))
  have hs := stack_read_eq_nil r text
  obtain ⟨t, ht, htokens, htexts⟩ := h.at_end hs
  refine ⟨?_, ?_, htexts, ?_⟩
  · have hcount := h.count
    simp only [read]
    omega
  · simpa [read, ht] using htokens
  · have hb := h.brackets
    rwa [hs] at hb

end Parse

end CommandShell
