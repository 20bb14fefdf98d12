import CommandShell.Proofs.CallLines
import CommandShell.Proofs.Conservation

/-! # Lines without back quotes

In a text without back quotes the reader looks for none, whatever else is wrong with the text, and
supposes none. So nothing is run while such a line is drafted. -/

namespace CommandShell

namespace Grammar

/-- Is an item a back quote, or a text between back quotes? -/
def isBack : Item → Bool
  | .token .backMark => true
  | .rule .backQuoted _ => true
  | _ => false

/-- Does a place go on with back quotes? -/
def startsBack (todo : List Item) : Bool := todo.head?.any isBack

def isChoice : List Item → Bool
  | .choice _ _ :: _ => true
  | _ => false

/-- Do all alternatives start with something else than back quotes? -/
def unmarked (alternatives : List (List Item)) : Bool :=
  alternatives.all fun xs => !xs.isEmpty && !startsBack xs

/-- Does a choice that the next token decides have no alternative with back quotes? -/
def settled : List Item → Bool
  | .choice .one alternatives :: _ => unmarked alternatives
  | _ => true

theorem startsBack_body {r : Rule} (hr : r ≠ .backQuoted) : startsBack (body r) = false := by
  revert hr
  cases r <;> decide

theorem settled_of_mem_places {r : Rule} {todo : List Item} (h : todo ∈ places r) :
    settled todo = true := by
  have all : ∀ r : Rule, ∀ todo ∈ along (body r), settled todo = true := by
    intro r
    cases r <;> decide +kernel
  exact all r todo (mem_along h)

/-- Only a choice leads to back quotes. -/
theorem startsBack_successor {r : Rule} (hr : r ≠ .backQuoted) {todo next : List Item}
    (h : todo ∈ places r) (hc : isChoice todo = false) (hn : next ∈ successors todo) :
    startsBack next = false := by
  have all : ∀ r : Rule, r ≠ .backQuoted → ∀ todo ∈ along (body r), isChoice todo = false →
      ∀ next ∈ successors todo, startsBack next = false := by
    intro r
    cases r <;> decide +kernel
  exact all r hr todo (mem_along h) hc next hn

end Grammar

namespace Parse

open Grammar

section Choices

variable {ks : List Kind}

theorem kindAt_ne_backMark (h : ∀ k ∈ ks, k ≠ .backMark) (n : Nat) : kindAt ks n ≠ .backMark := by
  rw [kindAt]
  cases hk : ks[n]? with
  | none => decide
  | some k => exact h k (List.mem_of_getElem? hk)

theorem isChoice_token {x : Item} (h : tokenKinds? x = some ks) (rest : List Item) :
    isChoice (x :: rest) = false := by
  cases x <;> first | rfl | cases h

theorem startsBack_append {xs : List Item} (hne : xs ≠ []) (rest : List Item) :
    startsBack (xs ++ rest) = startsBack xs := by
  rw [startsBack, List.head?_append_of_ne_nil _ hne, startsBack]

theorem startsBack_alternative {alternatives : List (List Item)}
    (h : unmarked alternatives = true) (rest : List Item) (n : Nat) :
    startsBack ((alternatives.map (· ++ rest))[n]?.getD []) = false := by
  rw [List.getElem?_map]
  cases hn : alternatives[n]? with
  | none => rfl
  | some xs =>
      have hxs := List.all_eq_true.mp h xs (List.mem_of_getElem? hn)
      rw [Bool.and_eq_true, Bool.not_eq_true', Bool.not_eq_true'] at hxs
      have hne : xs ≠ [] := by simpa using hxs.1
      exact (startsBack_append hne rest).trans hxs.2

theorem quotationForecast_unmarked {n : Nat} (hfirst : kindAt ks 0 ≠ .backMark)
    (hsecond : kindAt ks 1 ≠ .backMark) (h : quotationForecast ks = .way n) : n = 0 ∨ n = 1 := by
  revert h
  unfold quotationForecast
  cases hk : kindAt ks 0 with
  | backMark => exact absurd hk hfirst
  | singleMark =>
      rintro ⟨⟩
      exact Or.inl rfl
  | doubleMark =>
      rintro ⟨⟩
      exact Or.inr rfl
  | word =>
      cases hl : kindAt ks 1 with
      | backMark => exact absurd hl hsecond
      | doubleMark =>
          rintro ⟨⟩
          exact Or.inr rfl
      | _ => rintro ⟨⟩
  | _ => rintro ⟨⟩

theorem insideForecast_unmarked {n : Nat} (hfirst : kindAt ks 0 ≠ .backMark)
    (hsecond : kindAt ks 1 ≠ .backMark) (h : insideForecast ks = .way n) : n ≠ 0 := by
  revert h
  unfold insideForecast
  cases hk : kindAt ks 0 with
  | backMark => exact absurd hk hfirst
  | word =>
      cases hl : kindAt ks 1 with
      | backMark => exact absurd hl hsecond
      | lineBreak | finish => rintro ⟨⟩
      | _ =>
          rintro ⟨⟩
          decide
  | doubleMark | lineBreak | finish => rintro ⟨⟩
  | _ =>
      rintro ⟨⟩
      decide

/-- Where there is no back quote, no choice leads to one. -/
theorem startsBack_way (hks : ∀ k ∈ ks, k ≠ .backMark) {g : Guide} {mayEnd : Bool}
    {alternatives : List (List Item)} {rest : List Item} {n : Nat}
    (hknows : knows alternatives g = true)
    (hsettled : settled (.choice g alternatives :: rest) = true)
    (h : choose g mayEnd alternatives ks = .way n) :
    startsBack ((alternatives.map (· ++ rest))[n]?.getD []) = false := by
  have hfirst := kindAt_ne_backMark hks 0
  have hsecond := kindAt_ne_backMark hks 1
  cases g with
  | one => exact startsBack_alternative hsettled rest n
  | two => cases hknows
  | callOrPipe | piece =>
      obtain rfl := of_decide_eq_true hknows
      exact startsBack_alternative (by decide) rest n
  | quotation =>
      obtain rfl := of_decide_eq_true hknows
      rcases quotationForecast_unmarked hfirst hsecond h with rfl | rfl <;> rfl
  | inside =>
      obtain rfl := of_decide_eq_true hknows
      have hn := insideForecast_unmarked hfirst hsecond h
      -- Only the first of the alternatives is about back quotes.
      have hothers : unmarked insides.tail = true := by decide
      obtain ⟨i, rfl⟩ := Nat.exists_eq_succ_of_ne_zero hn
      exact startsBack_alternative hothers rest i

theorem startsBack_resolve (hks : ∀ k ∈ ks, k ≠ .backMark) {r : Rule} (hr : r ≠ .backQuoted)
    {todo next : List Item} (hp : todo ∈ places r) {level : Nat} {mayEnd : Bool}
    (h : resolve level mayEnd ks todo = some next) : startsBack next = false := by
  cases hc : isChoice todo with
  | false =>
      exact startsBack_successor hr hp hc
        (mem_successors_of_mem_turns (mem_turns_of_resolve hp h))
  | true =>
      match todo, hc with
      | .choice g alternatives :: rest, _ =>
          cases hway : choose g mayEnd alternatives ks with
          | stuck offset => simp [resolve, hway] at h
          | way n =>
              obtain rfl : (alternatives.map (· ++ rest))[n]?.getD [] = next := by
                simpa only [resolve, hway, Option.some.injEq] using h
              exact startsBack_way hks (knows_of_mem_places hp) (settled_of_mem_places hp) hway

end Choices

/-! ### Steps -/

namespace View

/-- No rule is about back quotes, the next item is not, and there are none in what is still to be
read. -/
structure Unmarked (v : View) : Prop where
  placed : Placed v.tasks
  rules : ∀ t ∈ v.tasks, t.rule ≠ .backQuoted
  top : ∀ t ∈ v.tasks.head?, startsBack t.todo = false
  rest : ∀ k ∈ v.kinds, k ≠ .backMark

theorem kinds_setTodo (v : View) (todo : List Item) : (v.setTodo todo).kinds = v.kinds := by
  unfold setTodo
  split <;> rfl

theorem kinds_advance_subset (v : View) (n : Nat) : (v.advance n).kinds ⊆ v.kinds := by
  rw [kinds, kinds, advance, List.map_drop]
  exact List.drop_subset n _

theorem Mended.kinds_subset {v v' : View} (h : Mended v v') : v'.kinds ⊆ v.kinds := by
  cases h with
  | skip n => exact kinds_advance_subset v n
  | drop => exact kinds_advance_subset v 1

namespace Unmarked

variable {v v' : View} {t : Task} {ts : List Task}

/-- The rule on top goes on with another place. -/
theorem setTodo (h : Unmarked v) (hs : v.tasks = t :: ts) (hs' : v'.tasks = v.tasks)
    (hk : v'.kinds ⊆ v.kinds) {next : List Item} (hn : next ∈ successors t.todo)
    (hb : startsBack next = false) : Unmarked (v'.setTodo next) := by
  have htasks : (v'.setTodo next).tasks = { t with todo := next } :: ts := by
    simp [View.setTodo, hs', hs]
  have hrules := h.rules
  have hplaced := h.placed
  rw [hs] at hrules hplaced
  refine ⟨?_, ?_, ?_, ?_⟩
  · rw [htasks]
    exact ⟨mem_places_of_successor hplaced.1 hn, hplaced.2⟩
  · rw [htasks]
    exact List.forall_mem_cons.mpr ⟨hrules t (by simp), fun u hu => hrules u (by simp [hu])⟩
  · rw [htasks]
    intro u hu
    obtain rfl := Option.some.inj hu
    exact hb
  · rw [kinds_setTodo]
    exact fun k hmem => h.rest k (hk hmem)

/-- The rule on top is over. -/
theorem tail (h : Unmarked v) (hs' : v'.tasks = v.tasks.tail) (hk : v'.kinds ⊆ v.kinds) :
    Unmarked v' := by
  have hrules : ∀ t ∈ v'.tasks, t.rule ≠ .backQuoted := by
    rw [hs']
    exact fun t ht => h.rules t (List.mem_of_mem_tail ht)
  refine ⟨hs' ▸ h.placed.tail, hrules, ?_, fun k hmem => h.rest k (hk hmem)⟩
  intro u hu
  obtain ⟨us, hus⟩ := List.head?_eq_some_iff.mp hu
  have hplaced := h.placed
  rw [hs'] at hus
  cases htasks : v.tasks with
  | nil => simp [htasks] at hus
  | cons t ts =>
      rw [htasks, List.tail_cons] at hus
      rw [htasks, hus] at hplaced
      -- The rule below has been waiting for the one above it.
      exact startsBack_successor (hrules u (List.mem_of_mem_head? hu)) hplaced.2.1 rfl
        (by simp [successors])

theorem place (h : Unmarked v) (hs : v.tasks = t :: ts) :
    t.todo ∈ places t.rule ∧ t.rule ≠ .backQuoted ∧ startsBack t.todo = false := by
  have hplaced := h.placed
  rw [hs] at hplaced
  exact ⟨hplaced.1, h.rules t (by simp [hs]), h.top t (by simp [hs])⟩

/-- What follows an item that is no choice is known before the item is treated. -/
theorem next (h : Unmarked v) (hs : v.tasks = t :: ts) {x : Item} {rest : List Item}
    (ht : t.todo = x :: rest) (hx : isChoice (x :: rest) = false)
    (hsucc : successors (x :: rest) = [rest]) :
    rest ∈ successors t.todo ∧ startsBack rest = false := by
  obtain ⟨hp, hr, -⟩ := h.place hs
  have hmem : rest ∈ successors t.todo := by simp [ht, hsucc]
  exact ⟨hmem, startsBack_successor hr hp (ht ▸ hx) hmem⟩

theorem enter (h : Unmarked v) (hs : v.tasks = t :: ts) {r : Rule} {level : Nat}
    {rest : List Item} (ht : t.todo = .rule r level :: rest) :
    Unmarked { v with tasks := ⟨r, level, body r⟩ :: { t with todo := rest } :: ts } := by
  obtain ⟨-, hr, hb⟩ := h.place hs
  have hr' : r ≠ .backQuoted := by
    rintro rfl
    rw [ht] at hb
    cases hb
  refine ⟨(Act.enter hs ht).placed h.placed, ?_, ?_, h.rest⟩
  · exact List.forall_mem_cons.mpr
      ⟨hr', List.forall_mem_cons.mpr ⟨hr, fun u hu => h.rules u (by simp [hs, hu])⟩⟩
  · intro u hu
    obtain rfl := Option.some.inj hu
    exact startsBack_body hr'

/-- No step leads to back quotes. -/
theorem act (h : Unmarked v) (hact : Act v v') : Unmarked v' := by
  cases hact with
  | leave hs ht => exact h.tail (by rw [hs]; rfl) (List.Subset.refl _)
  | fold hs ht =>
      obtain ⟨hmem, hb⟩ := h.next hs ht rfl rfl
      exact h.setTodo hs rfl (List.Subset.refl _) hmem hb
  | enter hs ht => exact h.enter hs ht
  | read n hs ht hx hn =>
      obtain ⟨hmem, hb⟩ := h.next hs ht (isChoice_token hx _) (tokenKinds?_successors hx)
      let v₁ : View := { v.advance n with givenUp := none }
      have htasks : v₁.tasks = v.tasks := rfl
      have hkinds : v₁.kinds ⊆ v.kinds := kinds_advance_subset v n
      exact h.setTodo hs htasks hkinds hmem hb
  | suppose hs ht hx hk =>
      obtain ⟨hmem, hb⟩ := h.next hs ht (isChoice_token hx _) (tokenKinds?_successors hx)
      exact h.setTodo hs rfl (List.Subset.refl _) hmem hb
  | turn mayEnd hs hv hresolve =>
      obtain ⟨hp, hr, -⟩ := h.place hs
      have hks := fun k hk => h.rest k (hv.kinds_subset hk)
      exact h.setTodo hs hv.tasks_eq hv.kinds_subset
        (mem_successors_of_mem_turns (mem_turns_of_resolve hp hresolve))
        (startsBack_resolve hks hr hp hresolve)
  | @giveUp v₁ n c hs hv hn =>
      refine h.tail ?_ (List.Subset.trans (kinds_advance_subset v₁ n) hv.kinds_subset)
      rw [← hv.tasks_eq]
      rfl

theorem awaits {m : Machine} (h : Unmarked m.view) (x : Item) (hx : m.awaits x) :
    isBack x = false := by
  cases hs : m.stack with
  | nil => simp [Machine.awaits, Machine.top, hs] at hx
  | cons f fs =>
      have htop := h.top f.task (by simp [Machine.view, hs])
      have hx' : f.todo.head? = some x := by simpa [Machine.awaits, Machine.top, hs] using hx
      simpa [startsBack, Frame.task, hx'] using htop

end Unmarked

end View

end Parse

/-! ### Trees without back quotes -/

/-- A tree in which nothing is read or supposed to be a back quote. -/
inductive Tree.Unmarked : Tree → Prop
  | leaf {t : Token} (h : Text.backQuote ∉ t.text) : Unmarked (.leaf t)
  | skipped {t : Token} (h : Text.backQuote ∉ t.text) : Unmarked (.skipped t)
  | missing {k : Kind} (h : k ≠ .backMark) : Unmarked (.missing k)
  | node {r : Rule} {kids : List Tree} (hr : r ≠ .backQuoted) (h : ∀ x ∈ kids, Unmarked x) :
      Unmarked (.node r kids)

namespace Parse

open Grammar

/-- A reading that has met no back quotes and will meet none. -/
structure Machine.Unmarked (m : Machine) : Prop where
  rules : ∀ f ∈ m.stack, f.rule ≠ .backQuoted
  kids : ∀ f ∈ m.stack, ∀ x ∈ f.kids, x.Unmarked
  rest : ∀ t ∈ m.rest, Text.backQuote ∉ t.text
  finish : Text.backQuote ∉ m.finish.text
  result : ∀ t ∈ m.result, t.Unmarked

namespace Machine.Unmarked

variable {m m' : Machine} {f : Frame} {fs : List Frame}

theorem node (h : Unmarked m) (hf : f ∈ m.stack) : (Tree.node f.rule f.kids).Unmarked :=
  .node (h.rules f hf) (h.kids f hf)

/-- Only the rule on top has changed. -/
theorem of_top (h : Unmarked m) {g : Frame} (hs : ∀ f ∈ fs, f ∈ m.stack)
    (hs' : m'.stack = g :: fs) (hr : g.rule ≠ .backQuoted) (hk : ∀ x ∈ g.kids, x.Unmarked)
    (hrest : m'.rest ⊆ m.rest) (hfinish : m'.finish = m.finish) (hresult : m'.result = m.result) :
    Unmarked m' where
  rules := by
    rw [hs']
    exact List.forall_mem_cons.mpr ⟨hr, fun f hf => h.rules f (hs f hf)⟩
  kids := by
    rw [hs']
    exact List.forall_mem_cons.mpr ⟨hk, fun f hf => h.kids f (hs f hf)⟩
  rest := fun t ht => h.rest t (hrest ht)
  finish := hfinish ▸ h.finish
  result := hresult ▸ h.result

theorem setTodo (h : Unmarked m) (todo : List Item) : Unmarked (m.setTodo todo) := by
  cases hs : m.stack with
  | nil => simpa [Machine.setTodo, hs] using h
  | cons f fs =>
      rw [Machine.setTodo_of_stack hs]
      exact h.of_top (fun g hg => by simp [hs, hg]) rfl (h.rules f (by simp [hs]))
        (h.kids f (by simp [hs])) (List.Subset.refl _) rfl rfl

theorem complain (h : Unmarked m) (t : Token) (trouble : Trouble) :
    Unmarked (m.complainAt t trouble) := by
  unfold Machine.complainAt
  split
  · exact h
  · exact ⟨h.rules, h.kids, h.rest, h.finish, h.result⟩

/-- The rule on top has one more child. -/
theorem addKid (h : Unmarked m) {t : Tree} (ht : t.Unmarked) : Unmarked (m.addKid t) := by
  cases hs : m.stack with
  | nil => simpa [Machine.addKid, hs] using h
  | cons f fs =>
      rw [addKid_of_stack hs]
      refine h.of_top (fun g hg => by simp [hs, hg]) rfl (h.rules f (by simp [hs])) ?_
        (List.Subset.refl _) rfl rfl
      exact List.forall_mem_append.mpr ⟨h.kids f (by simp [hs]), by simpa using ht⟩

theorem grown (h : Unmarked m) : m.grown.Unmarked := by
  have htoken : Text.backQuote ∉ m.token.text := by
    rw [token]
    cases hr : m.rest with
    | nil => exact h.finish
    | cons t ts => exact h.rest t (by simp [hr])
  unfold Machine.grown
  split
  · exact .skipped htoken
  · exact .leaf htoken

theorem consume (h : Unmarked m) (hs : m.stack ≠ []) : Unmarked m.consume := by
  obtain ⟨f, fs, hs⟩ := List.exists_cons_of_ne_nil hs
  rw [consume_of_stack hs]
  refine h.of_top (fun g hg => by simp [hs, hg]) rfl (h.rules f (by simp [hs])) ?_
    (List.drop_subset 1 m.rest) rfl rfl
  exact List.forall_mem_append.mpr ⟨h.kids f (by simp [hs]), by simpa using h.grown⟩

theorem fold (h : Unmarked m) : Unmarked m.fold := by
  cases hs : m.stack with
  | nil => simpa [Machine.fold, hs] using h
  | cons f fs =>
      have hf : f ∈ m.stack := by simp [hs]
      rw [fold_eq_of_stack hs]
      exact h.of_top (fun g hg => by simp [hs, hg]) rfl (h.rules f hf) (by simpa using h.node hf)
        (List.Subset.refl _) rfl rfl

theorem leave (h : Unmarked m) (hs : m.stack ≠ []) : Unmarked m.leave := by
  obtain ⟨f, fs, hs⟩ := List.exists_cons_of_ne_nil hs
  have hnode := h.node (f := f) (by simp [hs])
  cases fs with
  | nil =>
      rw [Machine.leave_of_last hs]
      exact ⟨by simp, by simp, h.rest, h.finish, by simpa using hnode⟩
  | cons g gs =>
      rw [Machine.leave_of_stack hs]
      refine h.of_top (fun g' hg => by simp [hs, hg]) rfl (h.rules g (by simp [hs])) ?_
        (List.Subset.refl _) rfl rfl
      exact List.forall_mem_append.mpr ⟨h.kids g (by simp [hs]), by simpa using hnode⟩

theorem stroke {may : Item → Prop} (hmay : ∀ x, may x → isBack x = false) (h : Unmarked m)
    (hm : Stroke may m m') : Unmarked m' := by
  cases hm with
  | setTodo todo => exact h.setTodo todo
  | settle => exact ⟨h.rules, h.kids, h.rest, h.finish, h.result⟩
  | complain t trouble => exact h.complain t trouble
  | note givenUp => exact ⟨h.rules, h.kids, h.rest, h.finish, h.result⟩
  | consume hs => exact h.consume hs
  | suppose k hk =>
      refine h.addKid (.missing ?_)
      rintro rfl
      cases hmay _ hk
  | leave hs => exact h.leave hs
  | fold => exact h.fold
  | enter r level hs hr =>
      refine h.of_top (fun g hg => hg) rfl ?_ (by simp) (List.Subset.refl _) rfl rfl
      rintro rfl
      cases hmay _ hr

theorem strokes {may : Item → Prop} (hmay : ∀ x, may x → isBack x = false) (h : Unmarked m)
    (hm : Strokes may m m') : Unmarked m' := by
  induction hm with
  | refl => exact h
  | tail _ hstroke ih => exact ih.stroke hmay hstroke

/-- What is treated next is never a back quote, so the reading goes on to meet none. -/
theorem run (h : Unmarked m) (hv : View.Unmarked m.view) (n : Nat) : Unmarked (m.run n) := by
  induction n generalizing m with
  | zero => exact h
  | succ n ih =>
      unfold Machine.run
      cases hs : m.stack with
      | nil => simpa using h
      | cons f fs => exact ih (h.strokes hv.awaits (strokes_step m)) (hv.act (act_step hs))

end Machine.Unmarked

/-- The tree of a text without back quotes has none, whatever is wrong with the text. -/
theorem unmarked_read {text : Text} (h : Text.backQuote ∉ text) {r : Rule}
    (hr : r ≠ .backQuoted) : (read r text).tree.Unmarked := by
  have hm : (Machine.start r text).Unmarked :=
    { rules := by simpa [Machine.start] using hr
      kids := by simp [Machine.start]
      rest := fun t ht => Token.notMem_of_mem_scan h ht
      finish := by
        change Text.backQuote ∉ "<EOF>".toList
        decide
      result := by simp [Machine.start] }
  have hv : (Machine.start r text).view.Unmarked :=
    { placed := placed_start r text
      rules := by simpa [Machine.start, Machine.view, Frame.task] using hr
      top := by simpa [Machine.start, Machine.view, Frame.task] using startsBack_body hr
      rest := by
        intro k hk
        obtain ⟨t, ht, rfl⟩ := List.mem_map.mp hk
        exact Token.kind_ne_backMark h ht }
  have hread := (hm.run hv (bound (Token.scan text).length)).result
  rw [read]
  cases hres : ((Machine.start r text).run (bound (Token.scan text).length)).result with
  | none => exact .node hr (by simp)
  | some t => exact hread t hres

end Parse

/-! ### Nothing is run while a line without back quotes is drafted -/

theorem Tree.missingText_unmarked {k : Kind} (h : k ≠ .backMark) :
    Text.backQuote ∉ Tree.missingText k := by
  revert h
  cases k <;> decide

theorem Tree.Unmarked.text {t : Tree} (h : t.Unmarked) : Text.backQuote ∉ t.text := by
  induction h with
  | leaf h => exact h
  | skipped h => exact h
  | missing h => exact Tree.missingText_unmarked h
  | node hr h ih =>
      rw [Tree.text_node, Tree.textAll_eq_flatMap]
      intro hmem
      obtain ⟨x, hx, hc⟩ := List.mem_flatMap.mp hmem
      exact ih x hx hc

namespace Drafting

variable {run run' : Text → List Value → World → Running}

theorem walkAll_congr {kids : List Tree} (h : ∀ x ∈ kids, walk run x = walk run' x) :
    walkAll run kids = walkAll run' kids := by
  induction kids with
  | nil => rfl
  | cons x xs ih =>
      rw [walkAll_cons, walkAll_cons, h x (by simp), ih fun y hy => h y (by simp [hy])]

/-- What would be run makes no difference to a tree without back quotes. -/
theorem walk_unmarked {t : Tree} (h : t.Unmarked) : walk run t = walk run' t := by
  induction h with
  | leaf | skipped | missing => rfl
  | @node r kids hr h ih =>
      have hkids := walkAll_congr ih
      cases r with
      | backQuoted => exact absurd rfl hr
      | line | atom | quoted => exact hkids
      | unquoted | singleQuoted => rfl
      | pipe | call => exact bind_congr fun _ => hkids
      | argument => rw [walk_argument, walk_argument, hkids]
      | command => rw [walk_command, walk_command, hkids]
      | redirection =>
          refine bind_congr fun _ => ?_
          rw [hkids]
      | doubleQuoted =>
          -- Here it is the text and not the rule that says whether something is run.
          have hnot : (Tree.textAll kids).contains Text.backQuote = false := by
            have hback := (Tree.Unmarked.node hr h).text
            simpa [List.contains_eq_mem] using hback
          rw [walk_doubleQuoted, walk_doubleQuoted, hnot]
          rfl

end Drafting

/-- Nothing is run while a line without back quotes is drafted. -/
theorem draftWith_unmarked {line : Text} (h : Text.backQuote ∉ line)
    (run run' : Text → List Value → World → Running) :
    draftWith run line = draftWith run' line := by
  funext w
  rw [draftWith, draftWith, Drafting.walk_unmarked (Parse.unmarked_read h (by decide))]

theorem runPlain_eq_runLine {line : Text} (h : Text.backQuote ∉ line) :
    runPlain line = runLine line := by
  funext out w
  rw [runPlain, runLine, runWith, runWith, draftWith_unmarked h]

end CommandShell
