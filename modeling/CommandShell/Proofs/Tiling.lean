import CommandShell.Proofs.Tokens

/-! # Tokens tile their text

The tokens that are scanned from a text stand one after another from its start to its end. Each is
a mark or a run that cannot be made longer on either side, and each knows its line and column. No
other list of tokens has these properties. -/

namespace CommandShell

namespace Kind

/-- The characters that are tokens of their own. -/
def marks : List Char :=
  [';', '|', '<', '>', Text.singleQuote, Text.doubleQuote, Text.backQuote]

/-- Every character is of one kind only. -/
theorem holds_iff {k : Kind} {c : Char} : k.Holds c ↔ ofChar c = k := by
  constructor
  · intro h
    cases k with
    | finish => cases h
    | blank | lineBreak => rcases h with rfl | rfl <;> rfl
    | word =>
        simp only [Holds, List.mem_cons, List.not_mem_nil, or_false, not_or] at h
        simp [ofChar, h]
    | _ =>
        obtain rfl := h
        rfl
  · rintro rfl
    exact holds_ofChar c

theorem isRun_of_mem_marks {c : Char} (h : c ∈ marks) : (ofChar c).isRun = false := by
  have hall : marks.all (fun d => !(ofChar d).isRun) = true := by decide
  simpa using List.all_eq_true.mp hall c h

end Kind

namespace Token

/-- A list of tokens that covers a text from its start to its end. -/
structure Tiles (text : Text) (ts : List Token) : Prop where
  first : ∀ t ∈ ts.head?, t.start = 0
  next : ts.IsChain fun t u => u.start = t.stop + 1
  last : ∀ t ∈ ts.getLast?, t.stop + 1 = text.length
  /-- Only a text without characters has no tokens. -/
  nonempty : text ≠ [] → ts ≠ []
  slice : ∀ t ∈ ts, t.text = (text.take (t.stop + 1)).drop t.start
  chars : ∀ t ∈ ts, t.text ≠ [] ∧ ∀ c ∈ t.text, t.kind.Holds c
  mark : ∀ t ∈ ts, t.kind.isRun = false → t.text.length = 1
  /-- Neither the character before a run nor the one behind it could belong to it. -/
  maximal : ∀ t ∈ ts, t.kind.isRun = true →
    (∀ i c, i + 1 = t.start → text[i]? = some c → ¬ t.kind.Holds c) ∧
      ∀ c, text[t.stop + 1]? = some c → ¬ t.kind.Holds c
  line : ∀ t ∈ ts, t.line = 1 + (text.take t.start).count '\n'
  column : ∀ t ∈ ts, t.column = ((text.take t.start).reverse.takeWhile (· ≠ '\n')).length

/-! ### Lines and columns -/

/-- The line and column behind a text. -/
def placeAfter (t : Text) : Nat × Nat :=
  (1 + t.count '\n', (t.reverse.takeWhile (· ≠ '\n')).length)

theorem placeAfter_concat (t : Text) (c : Char) :
    placeAfter (t ++ [c]) = advance (placeAfter t) c := by
  unfold placeAfter advance
  rw [List.count_append, List.reverse_append]
  by_cases h : c = '\n'
  · subst h
    simp
    omega
  · simp [h]

theorem advanceAll_append (place : Nat × Nat) (s t : Text) :
    advanceAll place (s ++ t) = advanceAll (advanceAll place s) t := List.foldl_append

/-- Line breaks and columns can be counted from the start of the text. -/
theorem advanceAll_start (t : Text) : advanceAll (1, 0) t = placeAfter t := by
  induction t using List.reverseRecOn with
  | nil => rfl
  | append_singleton t c ih =>
      rw [advanceAll_append, ih, placeAfter_concat]
      rfl

theorem placeAfter_append (s t : Text) : placeAfter (s ++ t) = advanceAll (placeAfter s) t := by
  rw [← advanceAll_start, advanceAll_append, advanceAll_start]

/-! ### Runs are found in no other way -/

def run (t : Token) : Kind × Text := (t.kind, t.text)

/-- The text that runs are made of. -/
def joinedRuns (rs : List (Kind × Text)) : Text := (rs.map Prod.snd).flatten

@[simp] theorem joinedRuns_nil : joinedRuns [] = [] := rfl

@[simp] theorem joinedRuns_cons (r : Kind × Text) (rs : List (Kind × Text)) :
    joinedRuns (r :: rs) = r.2 ++ joinedRuns rs := rfl

theorem joinedRuns_append (rs ss : List (Kind × Text)) :
    joinedRuns (rs ++ ss) = joinedRuns rs ++ joinedRuns ss := by
  simp [joinedRuns]

theorem ProperRun.runs_eq {k : Kind} {t : Text} (h : ProperRun k t) : runs t = [(k, t)] := by
  cases hk : k.isRun with
  | true => exact runs_of_kind hk h.nonempty h.chars
  | false =>
      obtain ⟨c, rfl⟩ := List.length_eq_one_iff.mp (h.mark hk)
      rw [← h.chars c (by simp)]
      rfl

theorem ProperRun.ofChar_head {k : Kind} {t more : Text} (h : ProperRun k t) {c : Char}
    (hc : c ∈ (t ++ more).head?) : Kind.ofChar c = k := by
  obtain ⟨d, ds, rfl⟩ := List.exists_cons_of_ne_nil h.nonempty
  obtain rfl : d = c := by simpa using hc
  exact h.chars d (by simp)

theorem ProperRun.ofChar_last {k : Kind} {t more : Text} (h : ProperRun k t) {c : Char}
    (hc : c ∈ (more ++ t).getLast?) : Kind.ofChar c = k := by
  rw [List.getLast?_append_of_ne_nil _ h.nonempty] at hc
  exact h.chars c (List.mem_of_mem_getLast? hc)

/-- Proper runs that are apart are the runs of the text that they make. -/
theorem runs_joinedRuns {rs : List (Kind × Text)} (hp : ∀ r ∈ rs, ProperRun r.1 r.2)
    (ha : (rs.map Prod.fst).IsChain Apart) : runs (joinedRuns rs) = rs := by
  induction rs with
  | nil => rfl
  | cons r rs ih =>
      have hr := hp r (by simp)
      have hrest := ih (fun x hx => hp x (by simp [hx])) ha.of_cons
      have happend : runs (r.2 ++ joinedRuns rs) = runs r.2 ++ runs (joinedRuns rs) := by
        apply runs_append
        intro x hx y hy
        cases rs with
        | nil => cases hy
        | cons s rs =>
            have hx' : Kind.ofChar x = r.1 := hr.chars x (List.mem_of_mem_getLast? hx)
            have hy' : Kind.ofChar y = s.1 := (hp s (by simp)).ofChar_head hy
            rw [hx', hy']
            exact (List.isChain_cons_cons.mp ha).1
      rw [joinedRuns_cons, happend, hr.runs_eq, hrest]
      rfl

/-! ### Tiles are tokens of the text -/

namespace Tiles

variable {text : Text} {ts : List Token}

theorem properRun (h : Tiles text ts) {t : Token} (ht : t ∈ ts) : ProperRun t.kind t.text where
  nonempty := (h.chars t ht).1
  chars := fun c hc => Kind.holds_iff.mp ((h.chars t ht).2 c hc)
  mark := h.mark t ht

theorem stop_add_one (h : Tiles text ts) {t : Token} (ht : t ∈ ts) :
    t.stop + 1 = t.start + t.text.length := by
  have hpos := List.length_pos_of_ne_nil (h.chars t ht).1
  rw [stop]
  omega

/-- A token is what the text goes on with where the token starts. -/
theorem drop_eq (h : Tiles text ts) {t : Token} (ht : t ∈ ts) :
    text.drop t.start = t.text ++ text.drop (t.stop + 1) := by
  have hle : t.start ≤ t.stop + 1 := by
    rw [h.stop_add_one ht]
    omega
  calc text.drop t.start
      = (text.take (t.stop + 1) ++ text.drop (t.stop + 1)).drop t.start := by
        rw [List.take_append_drop]
    _ = (text.take (t.stop + 1)).drop t.start ++ text.drop (t.stop + 1) := by
        rw [List.drop_append]
        have hlength : t.start - (text.take (t.stop + 1)).length = 0 ∨
            text.drop (t.stop + 1) = [] := by
          rcases Nat.le_total (t.stop + 1) text.length with hin | hout
          · left
            rw [List.length_take]
            omega
          · right
            exact List.drop_eq_nil_of_le hout
        rcases hlength with hzero | hnil
        · rw [hzero, List.drop_zero]
        · rw [hnil, List.drop_nil]
    _ = t.text ++ text.drop (t.stop + 1) := by rw [← h.slice t ht]

/-- The character behind a token is the first of the next token. -/
theorem apart (h : Tiles text ts) : (ts.map Token.kind).IsChain Apart := by
  rw [List.isChain_map]
  refine h.next.imp_of_mem_imp fun t u ht hu hnext => ?_
  rintro ⟨hkind, hrun⟩
  obtain ⟨c, cs, hc⟩ := List.exists_cons_of_ne_nil (h.chars u hu).1
  have hbehind : text[t.stop + 1]? = some c := by
    have hdrop := h.drop_eq hu
    rw [hnext, hc] at hdrop
    rw [← List.head?_drop, hdrop]
    rfl
  refine (h.maximal t ht (hkind ▸ hrun)).2 c hbehind ?_
  rw [hkind]
  exact (h.chars u hu).2 c (by simp [hc])

/-- What stands behind the first tokens, with its places. -/
theorem locate_eq (h : Tiles text ts) {before after : List Token} (hts : ts = before ++ after)
    {n : Nat} (hfirst : ∀ t ∈ after.head?, t.start = n) (hlast : after = [] → text.length ≤ n) :
    after = locate (placeAfter (text.take n)) n (after.map run) ∧
      text.drop n = joinedRuns (after.map run) := by
  induction after generalizing before n with
  | nil => exact ⟨rfl, List.drop_eq_nil_of_le (hlast rfl)⟩
  | cons t after ih =>
      have ht : t ∈ ts := by simp [hts]
      have hstart : t.start = n := hfirst t rfl
      have hstop := h.stop_add_one ht
      have hdrop := h.drop_eq ht
      rw [hstart] at hstop hdrop
      have hchain : (t :: after).IsChain fun t u => u.start = t.stop + 1 := by
        have hnext := h.next
        rw [hts] at hnext
        exact hnext.right_of_append
      have hsplit : ts = (before ++ [t]) ++ after := by simp [hts]
      obtain ⟨hrest, hjoined⟩ := ih hsplit (n := t.stop + 1)
        (fun u hu => hchain.rel_head? hu) fun hnil => by
          have hend := h.last t (by simp [hts, hnil])
          omega
      have hplace : placeAfter (text.take (t.stop + 1)) =
          advanceAll (placeAfter (text.take n)) t.text := by
        have htake : text.take (t.stop + 1) = text.take n ++ t.text := by
          rw [hstop, List.take_add, hdrop, List.take_left]
        rw [htake, placeAfter_append]
      refine ⟨?_, ?_⟩
      · have ht' : t = ⟨t.kind, t.text, (placeAfter (text.take n)).1,
            (placeAfter (text.take n)).2, n⟩ := by
          rw [← hstart, placeAfter, ← h.line t ht, ← h.column t ht]
        rw [hplace, hstop] at hrest
        rw [List.map_cons, run, locate, ← hrest, ← ht']
      · rw [hdrop, hjoined]
        rfl

theorem eq_scan (h : Tiles text ts) : ts = scan text := by
  have hlast : ts = [] → text.length ≤ 0 := by
    intro hnil
    have htext : text = [] := by
      by_contra hne
      exact h.nonempty hne hnil
    simp [htext]
  obtain ⟨hlocate, hjoined⟩ := h.locate_eq (List.nil_append ts).symm h.first hlast
  have hruns : runs text = ts.map run := by
    rw [← List.drop_zero (l := text), hjoined]
    apply runs_joinedRuns
    · rintro r hr
      obtain ⟨t, ht, rfl⟩ := List.mem_map.mp hr
      exact h.properRun ht
    · rw [List.map_map]
      exact h.apart
  rw [scan, hruns]
  exact hlocate

end Tiles

/-! ### The tokens of a text are tiles -/

/-- A token with the runs before it and behind it. -/
theorem exists_split_of_mem_locate {rs : List (Kind × Text)} {place : Nat × Nat} {n : Nat}
    {t : Token} (h : t ∈ locate place n rs) :
    ∃ before after, rs = before ++ run t :: after ∧ t.start = n + (joinedRuns before).length ∧
      (t.line, t.column) = advanceAll place (joinedRuns before) := by
  induction rs generalizing place n with
  | nil => cases h
  | cons r rs ih =>
      rw [locate] at h
      rcases List.mem_cons.mp h with rfl | h
      · exact ⟨[], rs, rfl, rfl, rfl⟩
      · obtain ⟨before, after, rfl, hstart, hplace⟩ := ih h
        refine ⟨r :: before, after, rfl, ?_, ?_⟩
        · rw [hstart, joinedRuns_cons, List.length_append]
          omega
        · rw [hplace, joinedRuns_cons, advanceAll_append]

theorem locate_append (rs ss : List (Kind × Text)) (place : Nat × Nat) (n : Nat) :
    locate place n (rs ++ ss) = locate place n rs ++
      locate (advanceAll place (joinedRuns rs)) (n + (joinedRuns rs).length) ss := by
  induction rs generalizing place n with
  | nil => rfl
  | cons r rs ih =>
      rw [List.cons_append, locate, ih, locate, joinedRuns_cons, advanceAll_append,
        List.length_append, Nat.add_assoc, List.cons_append]

theorem isChain_locate {rs : List (Kind × Text)} (hr : ∀ r ∈ rs, r.2 ≠ []) (place : Nat × Nat)
    (n : Nat) : (locate place n rs).IsChain fun t u => u.start = t.stop + 1 := by
  induction rs generalizing place n with
  | nil => exact .nil
  | cons r rs ih =>
      cases rs with
      | nil => exact .singleton _
      | cons s rs =>
          have hpos := List.length_pos_of_ne_nil (hr r (by simp))
          refine List.isChain_cons_cons.mpr ⟨?_, ih (fun x hx => hr x (by simp [hx])) _ _⟩
          change n + r.2.length = n + r.2.length - 1 + 1
          omega

theorem stop_last_locate {rs : List (Kind × Text)} (hr : ∀ r ∈ rs, r.2 ≠ []) {place : Nat × Nat}
    {n : Nat} {t : Token} (ht : t ∈ (locate place n rs).getLast?) :
    t.stop + 1 = n + (joinedRuns rs).length := by
  induction rs generalizing place n with
  | nil => cases ht
  | cons r rs ih =>
      have hpos := List.length_pos_of_ne_nil (hr r (by simp))
      cases rs with
      | nil =>
          obtain rfl : ⟨r.1, r.2, place.1, place.2, n⟩ = t := Option.some.inj ht
          rw [joinedRuns_cons, joinedRuns_nil, List.append_nil, stop]
          exact Nat.sub_add_cancel (Nat.le_add_left_of_le hpos)
      | cons s rs =>
          rw [locate, locate, List.getLast?_cons_cons, ← locate] at ht
          rw [ih (fun x hx => hr x (by simp [hx])) ht, joinedRuns_cons r, List.length_append]
          omega

theorem joinedRuns_runs (text : Text) : joinedRuns (runs text) = text := runs_flatten text

section Scan

variable {text : Text} {t : Token}

/-- A token of a text with what stands before it and behind it. -/
theorem exists_split_of_mem_scan (h : t ∈ scan text) :
    ∃ before after, runs text = before ++ run t :: after ∧
      text = joinedRuns before ++ (t.text ++ joinedRuns after) ∧
      t.start = (joinedRuns before).length ∧
      (t.line, t.column) = placeAfter (joinedRuns before) := by
  obtain ⟨before, after, hruns, hstart, hplace⟩ := exists_split_of_mem_locate h
  refine ⟨before, after, hruns, ?_, by simpa using hstart, by rw [hplace, advanceAll_start]⟩
  rw [← joinedRuns_runs text, hruns, joinedRuns_append, joinedRuns_cons]
  rfl

theorem stop_of_mem_scan (h : t ∈ scan text) : t.stop + 1 = t.start + t.text.length := by
  have hpos := List.length_pos_of_ne_nil ((lexed_scan text).proper t h).nonempty
  rw [stop]
  omega

theorem apart_of_runs {before after : List (Kind × Text)} {r s : Kind × Text}
    (h : runs text = before ++ r :: s :: after) : Apart r.1 s.1 := by
  have hchain := isChain_runs text
  rw [h, List.map_append, List.map_cons, List.map_cons] at hchain
  exact (List.isChain_cons_cons.mp hchain.right_of_append).1

/-- A run ends where the text goes on with another kind of character. -/
theorem not_holds_behind {before after : List (Kind × Text)}
    (h : runs text = before ++ run t :: after) (hrun : t.kind.isRun = true) {c : Char}
    (hc : c ∈ (joinedRuns after).head?) : ¬ t.kind.Holds c := by
  cases after with
  | nil => cases hc
  | cons s after =>
      intro hholds
      have hs : Kind.ofChar c = s.1 := (properRun_runs text s (by simp [h])).ofChar_head hc
      have hkind : t.kind = s.1 := (Kind.holds_iff.mp hholds).symm.trans hs
      exact apart_of_runs h ⟨hkind, hkind ▸ hrun⟩

theorem not_holds_before {before after : List (Kind × Text)}
    (h : runs text = before ++ run t :: after) (hrun : t.kind.isRun = true) {c : Char}
    (hc : c ∈ (joinedRuns before).getLast?) : ¬ t.kind.Holds c := by
  rcases List.eq_nil_or_concat before with rfl | ⟨before, s, rfl⟩
  · cases hc
  · intro hholds
    have hproper := properRun_runs text s (by simp [h])
    have hlast : joinedRuns (before.concat s) = joinedRuns before ++ s.2 := by
      simp [joinedRuns]
    rw [hlast] at hc
    have hs : Kind.ofChar c = s.1 := hproper.ofChar_last hc
    have hkind : s.1 = t.kind := hs.symm.trans (Kind.holds_iff.mp hholds)
    have hsplit : runs text = before ++ s :: run t :: after := by simp [h]
    exact apart_of_runs hsplit ⟨hkind, hrun⟩

theorem maximal_of_mem_scan (h : t ∈ scan text) (hrun : t.kind.isRun = true) :
    (∀ i c, i + 1 = t.start → text[i]? = some c → ¬ t.kind.Holds c) ∧
      ∀ c, text[t.stop + 1]? = some c → ¬ t.kind.Holds c := by
  have hstop := stop_of_mem_scan h
  obtain ⟨before, after, hruns, htext, hstart, -⟩ := exists_split_of_mem_scan h
  constructor
  · intro i c hi hc
    apply not_holds_before hruns hrun
    rw [hstart] at hi
    rw [htext, List.getElem?_append_left (by omega)] at hc
    rwa [List.getLast?_eq_getElem?, ← hi, Nat.add_sub_cancel]
  · intro c hc
    apply not_holds_behind hruns hrun
    rw [htext, hstop, hstart, List.getElem?_append_right (by omega),
      List.getElem?_append_right (by omega)] at hc
    rw [List.head?_eq_getElem?]
    simpa using hc

theorem slice_of_mem_scan (h : t ∈ scan text) :
    t.text = (text.take (t.stop + 1)).drop t.start := by
  have hstop := stop_of_mem_scan h
  obtain ⟨before, after, -, htext, hstart, -⟩ := exists_split_of_mem_scan h
  rw [hstop, hstart, htext, ← List.append_assoc, ← List.length_append, List.take_left,
    List.drop_left]

theorem tiles_scan (text : Text) : Tiles text (scan text) := by
  have hproper := (lexed_scan text).proper
  have hnonempty : ∀ r ∈ runs text, r.2 ≠ [] := fun r hr => (properRun_runs text r hr).nonempty
  have hplaced : ∀ t ∈ scan text, (t.line, t.column) = placeAfter (text.take t.start) := by
    intro t ht
    obtain ⟨before, after, -, htext, hstart, hplace⟩ := exists_split_of_mem_scan ht
    have htake : text.take t.start = joinedRuns before := by rw [htext, hstart, List.take_left]
    rw [hplace, htake]
  constructor
  · intro t ht
    rw [scan] at ht
    cases hruns : runs text with
    | nil => simp [hruns, locate] at ht
    | cons r rs =>
        rw [hruns, locate] at ht
        obtain rfl := Option.some.inj ht
        rfl
  · exact isChain_locate hnonempty _ _
  · intro t ht
    rw [stop_last_locate hnonempty ht, joinedRuns_runs, Nat.zero_add]
  · intro hne hnil
    apply hne
    rw [← scan_texts text, hnil]
    rfl
  · exact fun t ht => slice_of_mem_scan ht
  · exact fun t ht => ⟨(hproper t ht).nonempty,
      fun c hc => Kind.holds_iff.mpr ((hproper t ht).chars c hc)⟩
  · exact fun t ht => (hproper t ht).mark
  · exact fun t ht hrun => maximal_of_mem_scan ht hrun
  · exact fun t ht => congrArg Prod.fst (hplaced t ht)
  · exact fun t ht => congrArg Prod.snd (hplaced t ht)

/-- A character that is a mark is a token of its own. -/
theorem exists_mark_of_getElem? {i : Nat} {c : Char} (h : text[i]? = some c)
    (hc : c ∈ Kind.marks) : ∃ t ∈ scan text, t.start = i ∧ t.text = [c] ∧ t.kind.Holds c := by
  obtain ⟨hi, hget⟩ := List.getElem?_eq_some_iff.mp h
  have hlength : (text.take i).length = i := by
    rw [List.length_take]
    omega
  have hruns : runs text =
      runs (text.take i) ++ (Kind.ofChar c, [c]) :: runs (text.drop (i + 1)) := by
    rw [← runs_append_mark (Kind.isRun_of_mem_marks hc), ← hget, ← List.drop_eq_getElem_cons hi,
      List.take_append_drop]
  rw [scan, hruns, locate_append, locate, joinedRuns_runs, hlength]
  exact ⟨_, List.mem_append_right _ List.mem_cons_self, Nat.zero_add i, rfl, Kind.holds_ofChar c⟩

theorem isChain_kinds_scan (text : Text) :
    (scan text).IsChain fun t u => t.kind = u.kind → t.kind.isRun = false := by
  have hapart := (lexed_scan text).apart
  rw [List.isChain_map] at hapart
  refine hapart.imp fun t u h heq => ?_
  rw [Apart, ← heq, not_and] at h
  exact Bool.eq_false_iff.mpr (h rfl)

/-- The tokens of a text are the one way to tile it; two neighbours of one kind are marks, and
each mark of the text is a token of its own. -/
theorem scan_tiles_uniquely (text : Text) :
    Tiles text (scan text) ∧ (∀ ts, Tiles text ts → ts = scan text) ∧
      ((scan text).IsChain fun t u => t.kind = u.kind → t.kind.isRun = false) ∧
      ∀ i c, text[i]? = some c → c ∈ Kind.marks →
        ∃ t ∈ scan text, t.start = i ∧ t.text = [c] ∧ t.kind.Holds c :=
  ⟨tiles_scan text, fun _ h => h.eq_scan, isChain_kinds_scan text,
    fun _ _ h hc => exists_mark_of_getElem? h hc⟩

end Scan

end Token

end CommandShell
