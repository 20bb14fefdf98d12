import CommandShell.Token.Scan
import Mathlib.Data.List.Chain

/-! # Tokens of a text

What the tokens of a text have in common: every character of a token is of the token's kind, a
mark is one character, and no run stands next to a run of its own kind. -/

namespace CommandShell

namespace Kind

/-- The characters of which the tokens of a kind are made. -/
def Holds : Kind → Char → Prop
  | .finish, _ => False
  | .semicolon, c => c = ';'
  | .bar, c => c = '|'
  | .less, c => c = '<'
  | .greater, c => c = '>'
  | .singleMark, c => c = Text.singleQuote
  | .doubleMark, c => c = Text.doubleQuote
  | .backMark, c => c = Text.backQuote
  | .blank, c => c = ' ' ∨ c = '\t'
  | .lineBreak, c => c = '\r' ∨ c = '\n'
  | .word, c => c ∉ [' ', '\t', '\r', '\n', ';', '|', '<', '>', Text.singleQuote, Text.doubleQuote,
      Text.backQuote]

theorem holds_ofChar (c : Char) : (ofChar c).Holds c := by
  by_cases h : c ∈ [' ', '\t', '\r', '\n', ';', '|', '<', '>', Text.singleQuote, Text.doubleQuote,
      Text.backQuote]
  · simp only [List.mem_cons, List.not_mem_nil, or_false] at h
    rcases h with rfl | rfl | rfl | rfl | rfl | rfl | rfl | rfl | rfl | rfl | rfl
    all_goals first | exact rfl | exact Or.inl rfl | exact Or.inr rfl
  · have hword : ofChar c = .word := by
      simp only [List.mem_cons, List.not_mem_nil, or_false, not_or] at h
      simp [ofChar, h]
    rw [hword]
    exact h

theorem ofChar_eq_backMark_iff {c : Char} : ofChar c = .backMark ↔ c = Text.backQuote := by
  constructor
  · intro h
    have hc := holds_ofChar c
    rwa [h] at hc
  · rintro rfl
    decide

theorem eq_less_of_ofChar {c : Char} (h : ofChar c = .less) : c = '<' := by
  have hc := holds_ofChar c
  rwa [h] at hc

theorem eq_greater_of_ofChar {c : Char} (h : ofChar c = .greater) : c = '>' := by
  have hc := holds_ofChar c
  rwa [h] at hc

theorem ofChar_ne_finish (c : Char) : ofChar c ≠ .finish := by
  intro h
  have hc := holds_ofChar c
  rwa [h] at hc

end Kind

namespace Token

/-- A run that is what the scan makes of its characters. -/
structure ProperRun (k : Kind) (t : Text) : Prop where
  nonempty : t ≠ []
  chars : ∀ c ∈ t, Kind.ofChar c = k
  mark : k.isRun = false → t.length = 1

/-- Two neighbours that the scan keeps apart. -/
def Apart (k l : Kind) : Prop := ¬(k = l ∧ l.isRun = true)

/-- A list of tokens as a stretch of some text gives it. -/
structure Lexed (ts : List Token) : Prop where
  proper : ∀ t ∈ ts, ProperRun t.kind t.text
  apart : (ts.map Token.kind).IsChain Apart

theorem properRun_single (c : Char) : ProperRun (Kind.ofChar c) [c] where
  nonempty := by simp
  chars := by simp
  mark := by simp

theorem properRun_runs : ∀ (t : Text), ∀ x ∈ runs t, ProperRun x.1 x.2
  | [], x, hx => by simp [runs] at hx
  | c :: cs, x, hx => by
      have ih := properRun_runs cs
      unfold runs at hx
      split at hx
      · rw [List.mem_singleton] at hx
        subst hx
        exact properRun_single c
      · next k t rest hr =>
          rw [hr] at ih
          have hk := ih (k, t) (by simp)
          split at hx
          · next hrun =>
              rcases List.mem_cons.mp hx with rfl | hx
              · refine ⟨by simp, ?_, ?_⟩
                · intro d hd
                  rcases List.mem_cons.mp hd with rfl | hd
                  · exact hrun.1
                  · exact hk.chars d hd
                · intro hf
                  simp [hrun.2] at hf
              · exact ih x (by simp [hx])
          · rcases List.mem_cons.mp hx with rfl | hx
            · exact properRun_single c
            · exact ih x hx

theorem isChain_runs : ∀ t : Text, ((runs t).map Prod.fst).IsChain Apart
  | [] => by simp [runs]
  | c :: cs => by
      have ih := isChain_runs cs
      unfold runs
      split
      · simp
      · next k t rest hr =>
          rw [hr, List.map_cons] at ih
          split
          · simpa using ih
          · next hrun =>
              rw [List.map_cons, List.map_cons, List.isChain_cons_cons]
              exact ⟨hrun, ih⟩

theorem locate_runs : ∀ (rs : List (Kind × Text)) (p : Nat × Nat) (n : Nat),
    (locate p n rs).map (fun t => (t.kind, t.text)) = rs
  | [], _, _ => rfl
  | (k, t) :: rest, p, n => by simp [locate, locate_runs rest]

theorem lexed_scan (t : Text) : Lexed (scan t) := by
  have hl : (scan t).map (fun u => (u.kind, u.text)) = runs t := locate_runs (runs t) (1, 0) 0
  constructor
  · intro u hu
    have hm : (u.kind, u.text) ∈ runs t := by
      rw [← hl]
      exact List.mem_map_of_mem hu
    exact properRun_runs t _ hm
  · have hk : (scan t).map Token.kind = (runs t).map Prod.fst := by
      rw [← hl, List.map_map]
      rfl
    rw [hk]
    exact isChain_runs t

/-! ### Runs of texts put together -/

/-- One more character before runs. -/
def addChar (c : Char) : List (Kind × Text) → List (Kind × Text)
  | [] => [(Kind.ofChar c, [c])]
  | (k, t) :: rest =>
      if Kind.ofChar c = k ∧ k.isRun = true then (k, c :: t) :: rest
      else (Kind.ofChar c, [c]) :: (k, t) :: rest

theorem runs_cons (c : Char) (cs : Text) : runs (c :: cs) = addChar c (runs cs) := by
  rw [runs]
  cases runs cs <;> rfl

theorem addChar_append (c : Char) {rs : List (Kind × Text)} (h : rs ≠ [])
    (ss : List (Kind × Text)) : addChar c (rs ++ ss) = addChar c rs ++ ss := by
  obtain ⟨⟨k, t⟩, rest, rfl⟩ := List.exists_cons_of_ne_nil h
  rw [List.cons_append, addChar, addChar]
  split <;> rfl

/-- The first run is of the kind of the first character. -/
theorem exists_runs_cons (c : Char) (cs : Text) :
    ∃ t rest, runs (c :: cs) = (Kind.ofChar c, t) :: rest := by
  rw [runs_cons]
  cases runs cs with
  | nil => exact ⟨[c], [], rfl⟩
  | cons r rs =>
      rw [addChar]
      split
      · next hrun => exact ⟨c :: r.2, rs, by rw [hrun.1]⟩
      · exact ⟨[c], r :: rs, rfl⟩

theorem runs_ne_nil {t : Text} (h : t ≠ []) : runs t ≠ [] := by
  obtain ⟨c, cs, rfl⟩ := List.exists_cons_of_ne_nil h
  obtain ⟨t, rest, hruns⟩ := exists_runs_cons c cs
  simp [hruns]

/-- Texts that do not go on with one another are scanned one by one. -/
theorem runs_append {a b : Text}
    (h : ∀ x ∈ a.getLast?, ∀ y ∈ b.head?, Apart (Kind.ofChar x) (Kind.ofChar y)) :
    runs (a ++ b) = runs a ++ runs b := by
  induction a with
  | nil => rfl
  | cons c cs ih =>
      cases cs with
      | nil =>
          cases b with
          | nil => simp [runs]
          | cons y ys =>
              obtain ⟨t, rest, hruns⟩ := exists_runs_cons y ys
              have hapart : ¬(Kind.ofChar c = Kind.ofChar y ∧ (Kind.ofChar y).isRun = true) :=
                h c rfl y rfl
              rw [List.singleton_append, runs_cons, hruns, addChar, if_neg hapart]
              rfl
      | cons d ds =>
          have hrest := ih fun x hx => h x (by rw [List.getLast?_cons_cons]; exact hx)
          rw [List.cons_append, runs_cons, hrest, addChar_append c (runs_ne_nil (by simp)),
            ← runs_cons]

/-- A mark is a run of its own between any two texts. -/
theorem runs_append_mark {c : Char} (hc : (Kind.ofChar c).isRun = false) (a b : Text) :
    runs (a ++ c :: b) = runs a ++ (Kind.ofChar c, [c]) :: runs b := by
  have hleft : ∀ x ∈ a.getLast?, ∀ y ∈ (c :: b).head?, Apart (Kind.ofChar x) (Kind.ofChar y) := by
    rintro x - y hy ⟨-, hrun⟩
    obtain rfl := Option.some.inj hy
    simp [hc] at hrun
  have hright : ∀ x ∈ [c].getLast?, ∀ y ∈ b.head?, Apart (Kind.ofChar x) (Kind.ofChar y) := by
    rintro x hx y - ⟨heq, hrun⟩
    obtain rfl := Option.some.inj hx
    simp [← heq, hc] at hrun
  rw [runs_append hleft, ← List.singleton_append, runs_append hright]
  rfl

/-- A text of one kind that runs is one run. -/
theorem runs_of_kind {k : Kind} {t : Text} (hk : k.isRun = true) (hne : t ≠ [])
    (h : ∀ c ∈ t, Kind.ofChar c = k) : runs t = [(k, t)] := by
  induction t with
  | nil => exact absurd rfl hne
  | cons c cs ih =>
      have hc : Kind.ofChar c = k := h c (by simp)
      cases cs with
      | nil => rw [runs_cons, runs, addChar, hc]
      | cons d ds =>
          rw [runs_cons, ih (by simp) fun x hx => h x (by simp [hx]), addChar, if_pos ⟨hc, hk⟩]

theorem notMem_of_mem_scan {text : Text} {c : Char} (h : c ∉ text) {t : Token}
    (ht : t ∈ scan text) : c ∉ t.text := by
  intro hc
  apply h
  rw [← scan_texts text]
  exact List.mem_flatten.mpr ⟨t.text, List.mem_map_of_mem ht, hc⟩

/-- A text without back quotes has no token for one. -/
theorem kind_ne_backMark {text : Text} (h : Text.backQuote ∉ text) {t : Token}
    (ht : t ∈ scan text) : t.kind ≠ .backMark := by
  intro hk
  have hp := (lexed_scan text).proper t ht
  obtain ⟨c, hc⟩ := List.exists_mem_of_ne_nil t.text hp.nonempty
  have hb : c = Text.backQuote := Kind.ofChar_eq_backMark_iff.mp ((hp.chars c hc).trans hk)
  exact notMem_of_mem_scan h ht (hb ▸ hc)

namespace Lexed

theorem left {xs ys : List Token} (h : Lexed (xs ++ ys)) : Lexed xs where
  proper := fun t ht => h.proper t (List.mem_append_left ys ht)
  apart := by
    have ha := h.apart
    rw [List.map_append] at ha
    exact ha.left_of_append

theorem right {xs ys : List Token} (h : Lexed (xs ++ ys)) : Lexed ys where
  proper := fun t ht => h.proper t (List.mem_append_right xs ht)
  apart := by
    have ha := h.apart
    rw [List.map_append] at ha
    exact ha.right_of_append

end Lexed

end Token

end CommandShell
