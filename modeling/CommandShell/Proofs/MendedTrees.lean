import CommandShell.Proofs.OpenRows
import CommandShell.Proofs.Salvage
import CommandShell.Proofs.Signs
import CommandShell.Proofs.UnmarkedLines
import CommandShell.Proofs.Unsupported

/-! # How mended trees are walked

A tree that has been mended is walked by its notes as any other, if nothing in it is between back
quotes. Only the operator of a redirection can be another than in a tree without mistakes, and that
makes no difference to whether there is a row for a word. -/

namespace CommandShell

open Drafting

variable {run : Text → List Value → World → Running}

/-! ### Mended trees -/

theorem Drafting.redirectionSign_of_ne_nil {t : Text} (h : t ≠ []) :
    ∃ s, redirectionSign t = .ok s := by
  obtain ⟨c, cs, rfl⟩ := List.exists_cons_of_ne_nil h
  unfold redirectionSign
  split
  · exact ⟨_, rfl⟩
  · exact ⟨_, rfl⟩
  · next hnil => cases hnil

namespace Tree

open Note

theorem Unmarked.kid {r : Rule} {kids : List Tree} (h : Unmarked (.node r kids)) {x : Tree}
    (hx : x ∈ kids) : x.Unmarked := by
  cases h with
  | node _ h => exact h x hx

theorem Signed.kid {r : Rule} {kids : List Tree} (h : Signed (.node r kids)) {x : Tree}
    (hx : x ∈ kids) : x.Signed := by
  cases h with
  | node h _ => exact h x hx

/-- Walking a tree is following its notes, but for the operators of redirections. -/
def WalkedBy (run : Text → List Value → World → Running) (t : Tree) (ns : List Note) : Prop :=
  walk run t = perform ns ∧ Alike ns t.notes

theorem exists_walkedBy_all {kids : List Tree} (h : ∀ x ∈ kids, ∃ ns, WalkedBy run x ns) :
    ∃ ns, walkAll run kids = perform ns ∧ Alike ns (notesAll kids) := by
  induction kids with
  | nil => exact ⟨[], rfl, rfl⟩
  | cons x xs ih =>
      obtain ⟨ns, hwalk, halike⟩ := h x (by simp)
      obtain ⟨ms, hall, hms⟩ := ih fun y hy => h y (by simp [hy])
      exact ⟨ns ++ ms, by rw [walkAll_cons, hwalk, hall, perform_append], halike.append hms⟩

/-- A tree without commands and back quotes is walked by its notes, even if it has been mended. -/
theorem Simple.exists_walkedBy {t : Tree} (h : t.Simple) (hu : t.Unmarked) (hs : t.Signed) :
    ∃ ns, WalkedBy run t ns := by
  induction h with
  | leaf | skipped | missing => exact ⟨[], rfl, rfl⟩
  | @node r kids hr h ih =>
      obtain ⟨ns, hwalk, halike⟩ := exists_walkedBy_all fun x hx => ih x hx (hu.kid hx) (hs.kid hx)
      cases r with
      | command => exact absurd rfl hr
      | line | atom | quoted => exact ⟨ns, hwalk, halike⟩
      | pipe | call =>
          refine ⟨.expected :: ns, ?_, halike.cons _⟩
          rw [perform, performNote, ← hwalk]
          rfl
      | argument =>
          refine ⟨.argument (textAll kids) :: ns, ?_, halike.cons _⟩
          rw [walk_argument, perform, performNote, hwalk]
      | redirection =>
          have htext : textAll kids ≠ [] := by
            cases hs with
            | node _ ht => exact ht rfl
          obtain ⟨sign, hsign⟩ := redirectionSign_of_ne_nil htext
          refine ⟨.redirection sign :: ns, ?_, ?_⟩
          · rw [walk_redirection run kids hsign, perform, performNote, hwalk, bind_assoc]
          · rw [Alike, List.map_cons, halike]
            rfl
      | unquoted | singleQuoted =>
          exact ⟨[.word (textAll kids)], by simp [perform, performNote], rfl⟩
      | doubleQuoted =>
          have hback : (textAll kids).contains Text.backQuote = false := by
            simpa [List.contains_eq_mem] using hu.text
          refine ⟨[.word ((textAll kids).filter (· ≠ Text.doubleQuote))], ?_, rfl⟩
          rw [walk_doubleQuoted, hback]
          simp [perform, performNote]
      | backQuoted =>
          cases hu with
          | node hr _ => exact absurd rfl hr

/-! ### Items that start with a whole call -/

section Items

variable {c x : Tree}

theorem LedBy.exists_walkedBy (h : LedBy c x) (hc : IsCall c) (hp : Plain c) (hu : x.Unmarked)
    (hs : x.Signed) : ∃ ns, WalkedBy run x ns := by
  induction h with
  | call => exact ⟨c.notes, hc.walk_eq hp, rfl⟩
  | @pipe p s kids _ hbar hk ih =>
      have hcall : Simple (.node .call kids) := .node (by decide) hk
      have hkids : ∀ y ∈ [p, s, .node .call kids], ∃ ns, WalkedBy run y ns := by
        intro y hy
        have huy := hu.kid hy
        have hsy := hs.kid hy
        simp only [List.mem_cons, List.not_mem_nil, or_false] at hy
        rcases hy with rfl | rfl | rfl
        · exact ih huy hsy
        · exact ⟨_, hbar.walk_eq, rfl⟩
        · exact hcall.exists_walkedBy huy hsy
      obtain ⟨ns, hwalk, halike⟩ := exists_walkedBy_all hkids
      refine ⟨.expected :: ns, ?_, halike.cons _⟩
      rw [walk_pipe, perform, performNote, hwalk]

/-- The notes of the call come first, but for the pipes that it is in. -/
theorem LedBy.notes_eq (h : LedBy c x) :
    ∃ n more, x.notes = List.replicate n .expected ++ (c.notes ++ more) := by
  induction h with
  | call => exact ⟨0, [], by simp⟩
  | @pipe p s kids _ hbar _ ih =>
      obtain ⟨n, more, hp⟩ := ih
      obtain ⟨hs⟩ := hbar
      refine ⟨n + 1, more ++ notes (.node .call kids), ?_⟩
      simp [hp, List.replicate_succ]

theorem LedBy.calls_eq (h : LedBy c x) (hc : IsCall c) : ∃ more, x.calls = c :: more := by
  induction h with
  | call => exact ⟨[], hc.calls_eq⟩
  | @pipe p s kids _ hbar _ ih =>
      obtain ⟨more, hp⟩ := ih
      obtain ⟨hs⟩ := hbar
      refine ⟨more ++ [.node .call kids], ?_⟩
      rw [calls] at hp
      simp [calls, outermost_node, hp]

theorem LedBy.rule?_eq (h : LedBy c x) (hc : IsCall c) :
    x.rule? = some .pipe ∨ x.rule? = some .call ∧ x = c := by
  cases h with
  | call => exact Or.inr ⟨hc.rule?_eq, rfl⟩
  | pipe => exact Or.inl rfl

theorem LedBy.items_eq (h : LedBy c x) (hc : IsCall c) : x.items = [x] := by
  cases h with
  | call => exact hc.items_eq
  | pipe => rfl

/-- The first note of a call that opens a row or needs one. -/
theorem Start.find_decides (h : c.Start) :
    ∃ n, c.notes.find? decides = some n ∧ n.opens = !c.startsUnsupported := by
  cases h with
  | @redirection s rest hs hnotes =>
      exact ⟨.redirection s, by simp [hnotes, decides, opens, isWord], by simp [hs, opens]⟩
  | @named name rest hs hn =>
      refine ⟨.argument name, ?_, by simp [hs, opens, hn.isName]⟩
      simp [hn.notes, decides, opens, isWord, hn.isName]
  | @unsupported a rest hs _ hname hwords hnotes =>
      obtain ⟨v, vs, hv⟩ := List.exists_cons_of_ne_nil hwords
      refine ⟨.word v, ?_, by simp [hs, opens]⟩
      simp [hnotes, hv, decides, opens, isWord, hname]

theorem IsCall.any_isWord (h : IsCall c) (hp : Plain c) : c.notes.any isWord = true := by
  obtain ⟨hl, hh, hx, ht, hr⟩ := h
  next lead trail heads tails x =>
  obtain ⟨hnotes, hwords⟩ := hx.notes_eq (hp.kid (by simp))
  obtain ⟨v, vs, hv⟩ := List.exists_cons_of_ne_nil hwords
  apply List.any_eq_true.mpr
  refine ⟨.word v, ?_, rfl⟩
  simp [notesAll_append, hnotes, hv]

end Items

/-- An item that starts with a whole call, and the notes by which it is walked. -/
structure ItemWalk (run : Text → List Value → World → Running) (c x : Tree) (ns : List Note) :
    Prop where
  isCall : IsCall c
  plain : Plain c
  led : LedBy c x
  walked : WalkedBy run x ns

namespace ItemWalk

variable {c x : Tree} {ns : List Note}

theorem any_opens (h : ItemWalk run c x ns) : ns.any opens = x.notes.any opens :=
  h.walked.2.any_eq opens_unsigned

theorem any_isWord (h : ItemWalk run c x ns) : ns.any isWord = true := by
  obtain ⟨n, more, hnotes⟩ := h.led.notes_eq
  rw [h.walked.2.any_eq isWord_unsigned, hnotes]
  simp [h.isCall.any_isWord h.plain]

theorem exists_cons (h : ItemWalk run c x ns) : ∃ ns', ns = .expected :: ns' := by
  obtain ⟨ks, hkids, -⟩ := h.isCall.kids_cases
  obtain ⟨n, more, hnotes⟩ := h.led.notes_eq
  have halike := h.walked.2
  rw [hnotes, hkids, notes_call] at halike
  cases n with
  | zero => exact halike.exists_cons
  | succ n => exact halike.exists_cons

theorem find_decides (h : ItemWalk run c x ns) :
    ∃ n, ns.find? decides = some n ∧ n.opens = !c.startsUnsupported := by
  obtain ⟨k, more, hnotes⟩ := h.led.notes_eq
  obtain ⟨m, hm, hopens⟩ := (h.isCall.start h.plain).find_decides
  have hfind : x.notes.find? decides = some m := by
    rw [hnotes, List.find?_append, List.find?_append, hm, List.find?_replicate]
    simp [decides, opens, isWord]
  obtain ⟨n, hn, hsame⟩ := h.walked.2.find_decides hfind
  exact ⟨n, hn, hsame.trans hopens⟩

end ItemWalk

section Tokens

variable {ts : List Token} {x : Tree}

theorem scanned_of_stretch (hl : Token.Lexed ts) {c : Tree} (h : c.tokens <:+: ts) :
    Scanned c := by
  obtain ⟨before, after, htokens⟩ := h
  rw [← htokens] at hl
  exact hl.left.right

theorem plain_of_stretch (hl : Token.Lexed ts) (hb : ∀ t ∈ ts, t.kind ≠ .backMark) {c : Tree}
    (h : c.tokens <:+: ts) : Plain c :=
  ⟨scanned_of_stretch hl h, fun k hk => hb k (h.subset hk)⟩

theorem Opened.exists_itemWalk (hl : Token.Lexed ts) (hb : ∀ t ∈ ts, t.kind ≠ .backMark)
    (h : Opened ts x) (hu : x.Unmarked) (hs : x.Signed) : ∃ c ns, ItemWalk run c x ns := by
  obtain ⟨c, hc, htokens, hled⟩ := h
  have hplain := plain_of_stretch hl hb htokens
  obtain ⟨ns, hwalked⟩ := hled.exists_walkedBy hc hplain hu hs
  exact ⟨c, ns, hc, hplain, hled, hwalked⟩

theorem Opened.isCall (h : Opened ts x) (hr : x.rule? = some .call) :
    IsCall x ∧ x.tokens <:+: ts := by
  obtain ⟨c, hc, htokens, hled⟩ := h
  rcases hled.rule?_eq hc with hpipe | ⟨-, rfl⟩
  · rw [hr] at hpipe
    cases hpipe
  · exact ⟨hc, htokens⟩

theorem Opened.items_eq (h : Opened ts x) : x.items = [x] := by
  obtain ⟨c, hc, -, hled⟩ := h
  exact hled.items_eq hc

end Tokens

end Tree

end CommandShell
