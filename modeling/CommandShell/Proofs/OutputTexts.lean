import CommandShell.Proofs.CallRows
import CommandShell.Proofs.Frame

/-! # Output that is made of texts

The input of a call is made of lists, and what an application gives out of a list are its members.
So a call gives out texts as long as its input holds nothing but texts and lists of texts. This is
so of every call of a line that comes to one command: calls in a sequence are given files, and calls
in a pipe what the call before has given out. Where a pipe follows a sequence it is given the input
of the sequence as one list more, and its output may hold lists. -/

namespace CommandShell

/-- All values are texts. -/
def AllTexts (vs : List Value) : Prop := ∀ v ∈ vs, ∃ t, v = .text t

theorem allTexts_nil : AllTexts [] := nofun

theorem allTexts_singleton (t : Text) : AllTexts [.text t] := by simp [AllTexts]

theorem allTexts_map (ts : List Text) : AllTexts (ts.map .text) :=
  List.forall_mem_map.mpr fun t _ => ⟨t, rfl⟩

theorem AllTexts.append {us vs : List Value} (hu : AllTexts us) (hv : AllTexts vs) :
    AllTexts (us ++ vs) := List.forall_mem_append.mpr ⟨hu, hv⟩

theorem AllTexts.of_subset {us vs : List Value} (h : AllTexts vs) (hs : us ⊆ vs) : AllTexts us :=
  fun v hv => h v (hs hv)

namespace Value

/-- A text, or a list of texts. -/
def Flat (v : Value) : Prop := AllTexts v.members

theorem flat_text (t : Text) : (Value.text t).Flat :=
  List.forall_mem_map.mpr fun c _ => ⟨[c], rfl⟩

theorem Flat.inner {v : Value} (h : v.Flat) : v.inner.Flat := by
  cases v with
  | text t => exact flat_text _
  | list xs =>
      exact AllTexts.of_subset h
        (List.Subset.trans (List.dropLast_subset _) (List.drop_subset 1 xs))

end Value

theorem AllTexts.flat {vs : List Value} (h : AllTexts vs) : ∀ v ∈ vs, v.Flat := by
  intro v hv
  obtain ⟨t, rfl⟩ := h v hv
  exact Value.flat_text t

theorem World.allTexts_openFile {w : World} {v : Value} {lines : List Value}
    (h : w.openFile v = .ok lines) : AllTexts lines := by
  cases v with
  | list xs => cases h
  | text path =>
      rw [openFile] at h
      cases hr : w.readLines path with
      | error e =>
          rw [hr] at h
          cases h
      | ok ls =>
          rw [hr] at h
          cases h
          exact allTexts_map ls

theorem Yield.allTexts_each {α : Type} {f : α → Yield} {xs : List α}
    (h : ∀ x ∈ xs, AllTexts (f x).items) : AllTexts (Yield.each f xs).items := by
  induction xs with
  | nil => exact allTexts_nil
  | cons x xs ih =>
      have hx := h x (by simp)
      unfold Yield.each
      split
      · exact hx
      · exact hx.append (ih fun y hy => h y (by simp [hy]))

theorem Yield.allTexts_ofExcept {r : Except Fault (List Value)}
    (h : ∀ xs, r = .ok xs → AllTexts xs) : AllTexts (Yield.ofExcept r).items := by
  cases r with
  | ok xs => exact h xs rfl
  | error e => exact allTexts_nil

/-! ### Applications -/

namespace Application

variable {args : List Value} {w : World}

theorem allTexts_sourceLines (h : ∀ a ∈ args, a.Flat) {lines : List Value}
    (hs : sourceLines w args = .ok lines) : AllTexts lines := by
  cases args with
  | nil => cases hs
  | cons a rest =>
      cases a with
      | list xs =>
          obtain rfl : xs = lines := Except.ok.inj hs
          exact h (.list xs) (by simp)
      | text t =>
          have hopen : w.openFile (.text t) = .ok lines := hs
          exact World.allTexts_openFile hopen

theorem allTexts_runEcho (args : List Value) (w : World) : AllTexts (runEcho args w).added := by
  refine Yield.allTexts_each fun v _ => ?_
  cases v with
  | text t => exact allTexts_singleton _
  | list xs => exact allTexts_nil

theorem allTexts_runCat (h : ∀ a ∈ args, a.Flat) (w : World) : AllTexts (runCat args w).added := by
  refine Yield.allTexts_each fun v hv => ?_
  cases v with
  | text path => exact Yield.allTexts_ofExcept fun lines hl => World.allTexts_openFile hl
  | list xs =>
      cases args with
      | nil => cases hv
      | cons a rest => exact h a (by simp)

theorem allTexts_runCut (args : List Value) (w : World) : AllTexts (runCut args w).added := by
  fun_cases runCut args w with
  | case5 =>
      refine Yield.allTexts_each fun line _ => ?_
      split
      · exact allTexts_singleton _
      · exact allTexts_nil
  | _ => exact allTexts_nil

theorem allTexts_runFind (args : List Value) (w : World) : AllTexts (runFind args w).added := by
  unfold runFind
  split
  · exact allTexts_nil
  · dsimp only
    split
    · exact allTexts_nil
    · split
      · exact allTexts_nil
      · refine Yield.allTexts_each fun file _ => ?_
        unfold fitting
        split
        · exact allTexts_nil
        · split
          · exact allTexts_singleton _
          · exact allTexts_nil

theorem allTexts_found (terminal : Bool) (pattern : Value) (before : Text) (line : Value) :
    AllTexts (found terminal pattern before line).items := by
  unfold found
  split
  · exact allTexts_nil
  · exact allTexts_nil
  · split
    · exact allTexts_nil
    · exact allTexts_singleton _

theorem allTexts_runGrep (args : List Value) (w : World) : AllTexts (runGrep args w).added := by
  fun_cases runGrep args w with
  | case4 => exact Yield.allTexts_each fun line _ => allTexts_found _ _ _ line
  | case5 =>
      refine Yield.allTexts_each fun file _ => ?_
      unfold foundIn
      split
      · exact allTexts_nil
      · exact Yield.allTexts_each fun line _ => allTexts_found _ _ _ line
  | _ => exact allTexts_nil

theorem allTexts_selection (h : ∀ a ∈ args, a.Flat) {lines : List Value} {n : Int}
    (hs : selection w args = .ok (lines, n)) : AllTexts lines := by
  have hrest : ∀ k rest, lineCount args = .ok (k, rest) → rest ⊆ args := by
    intro k rest hk
    revert hk
    fun_cases lineCount args with
    | case3 n =>
        intro hk
        cases hk
        exact fun x hx => by simp [hx]
    | case5 =>
        intro hk
        cases hk
        exact List.Subset.refl _
    | _ => exact nofun
  revert hs
  fun_cases selection w args with
  | case4 k rest hk _ source hsource =>
      intro hs
      obtain ⟨rfl, -⟩ := Prod.mk.inj (Except.ok.inj hs)
      exact allTexts_sourceLines (fun v hv => h v (hrest k rest hk hv)) hsource
  | _ => exact nofun

theorem allTexts_runHead (h : ∀ a ∈ args, a.Flat) (w : World) :
    AllTexts (runHead args w).added := by
  unfold runHead
  split
  · exact allTexts_nil
  · next lines n hs => exact (allTexts_selection h hs).of_subset (List.take_subset _ _)

theorem allTexts_runTail (h : ∀ a ∈ args, a.Flat) (w : World) :
    AllTexts (runTail args w).added := by
  unfold runTail
  split
  · exact allTexts_nil
  · next lines n hs => exact (allTexts_selection h hs).of_subset (List.drop_subset _ _)

theorem allTexts_runLs (args : List Value) (w : World) : AllTexts (runLs args w).added := by
  have hnames : ∀ items, AllTexts (shownNames items) := fun items =>
    List.forall_mem_map.mpr fun x _ => ⟨_, rfl⟩
  fun_cases runLs args w with
  | case1 => exact hnames _
  | case5 => exact hnames _
  | _ => exact allTexts_nil

theorem allTexts_withNames (f : Value → World → World × Option Fault) (args : List Value)
    (w : World) : AllTexts (withNames f args w).added := by
  fun_cases withNames f args w <;> exact allTexts_nil

/-- The arguments are the same but for a flag. -/
theorem flat_withoutFlag {a : Value} {rest : List Value} (h : ∀ v ∈ a :: rest, v.Flat) (b : Bool) :
    ∀ v ∈ (if b then rest else a :: rest), v.Flat := by
  cases b with
  | true => exact fun v hv => h v (List.mem_cons_of_mem a hv)
  | false => exact h

theorem allTexts_runSort (h : ∀ a ∈ args, a.Flat) (w : World) :
    AllTexts (runSort args w).added := by
  unfold runSort
  split
  · exact allTexts_nil
  · next a rest =>
      dsimp only
      split
      · exact allTexts_nil
      · split
        · exact allTexts_nil
        · next lines hs =>
            have hlines := allTexts_sourceLines (flat_withoutFlag h _) hs
            refine Yield.allTexts_ofExcept fun sorted hsorted => hlines.of_subset ?_
            unfold arranged at hsorted
            split at hsorted
            · cases hsorted
            · cases hsorted
              exact (perm_sortBy _ lines).subset

theorem changesAfter_subset (ignoreCase : Bool) (before : Value) (lines : List Value) :
    (changesAfter ignoreCase before lines).items ⊆ lines := by
  induction lines generalizing before with
  | nil => exact List.Subset.refl _
  | cons line rest ih =>
      unfold changesAfter
      split
      · exact List.nil_subset _
      · exact List.subset_cons_of_subset line (ih line)
      · exact List.cons_subset_cons line (ih line)

theorem allTexts_runUniq (h : ∀ a ∈ args, a.Flat) (w : World) :
    AllTexts (runUniq args w).added := by
  unfold runUniq
  split
  · exact allTexts_nil
  · next a rest =>
      dsimp only
      split
      · exact allTexts_nil
      · split
        · exact allTexts_nil
        · next lines hs =>
            refine (allTexts_sourceLines (flat_withoutFlag h _) hs).of_subset ?_
            cases lines with
            | nil => exact List.Subset.refl _
            | cons line more => exact List.cons_subset_cons line (changesAfter_subset _ line more)

theorem allTexts_counted (before : Text) (lines : List Value) :
    AllTexts (counted before lines).items := by
  unfold counted
  split
  · exact allTexts_singleton _
  · exact allTexts_nil

theorem allTexts_runWc (args : List Value) (w : World) : AllTexts (runWc args w).added := by
  fun_cases runWc args w with
  | case3 => exact allTexts_counted _ _
  | case4 =>
      refine Yield.allTexts_each fun file _ => ?_
      split
      · exact allTexts_nil
      · exact allTexts_counted _ _
  | _ => exact allTexts_nil

/-- An application gives out texts when its arguments are texts and lists of texts. -/
theorem allTexts_exec (a : Application) (h : ∀ v ∈ args, v.Flat) (w : World) :
    AllTexts (a.exec args w).added := by
  cases a with
  | cat => exact allTexts_runCat h w
  | cd =>
      change AllTexts (runCd args w).added
      fun_cases runCd args w <;> exact allTexts_nil
  | cut => exact allTexts_runCut args w
  | echo => exact allTexts_runEcho args w
  | find => exact allTexts_runFind args w
  | grep => exact allTexts_runGrep args w
  | head => exact allTexts_runHead h w
  | ls => exact allTexts_runLs args w
  | mkdir => exact allTexts_withNames makeOne args w
  | pwd => exact allTexts_singleton _
  | rm => exact allTexts_withNames removeOne args w
  | sort => exact allTexts_runSort h w
  | tail => exact allTexts_runTail h w
  | uniq => exact allTexts_runUniq h w
  | wc => exact allTexts_runWc args w

end Application

/-! ### Commands -/

namespace Command

variable {rows : List Row} {row : Row} {input out : List Value} {w : World}

theorem flat_unquote {v : Value} (h : v.Flat) : (unquote v).Flat := by
  unfold unquote
  split
  · exact h.inner
  · exact h

theorem flat_callArguments (hr : AllTexts row) (hi : ∀ v ∈ input, v.Flat) :
    ∀ v ∈ callArguments row input, v.Flat := by
  refine List.forall_mem_map.mpr fun v hv => flat_unquote ?_
  cases input with
  | nil => exact hr.flat v hv
  | cons first more =>
      dsimp only at hv
      split at hv
      · exact hr.flat v hv
      · rcases List.mem_append.mp hv with hv | hv
        · exact hr.flat v hv
        · exact hi v hv

theorem flat_arguments {a : Application} {args args' : List Value} (h : ∀ v ∈ args, v.Flat)
    (ha : a.arguments args = .ok args') : ∀ v ∈ args', v.Flat := by
  have hmem : args' = [.text ['.']] ∨ args' = args := by
    unfold Application.arguments at ha
    split at ha
    · revert ha
      fun_cases Application.findArguments args with
      | case6 => exact fun ha => Or.inl (Except.ok.inj ha).symm
      | case4 | case7 => exact fun ha => Or.inr (Except.ok.inj ha).symm
      | _ => exact nofun
    · split at ha
      · exact Or.inr (Except.ok.inj ha).symm
      · cases ha
  rcases hmem with rfl | rfl
  · exact (allTexts_singleton _).flat
  · exact h

theorem allTexts_runRow (hr : AllTexts row) (hi : ∀ v ∈ input, v.Flat) (w : World) :
    AllTexts (runRow row input w).added := by
  unfold runRow
  split
  · exact allTexts_nil
  · next word words =>
      split
      · exact allTexts_nil
      · next a guarded _ =>
          split
          · exact allTexts_nil
          · next args hargs =>
              have hwords : AllTexts words := hr.of_subset (List.subset_cons_self word words)
              have hexec := a.allTexts_exec (flat_arguments (flat_callArguments hwords hi) hargs) w
              split
              · unfold Effect.guarded
                split <;> exact hexec
              · exact hexec

theorem flat_takeInputFrom (h : ∀ v ∈ input, v.Flat) (w : World) (i : Nat) (taken : Option Nat)
    (rows : List Row) : ∀ v ∈ (takeInputFrom w i taken input rows).input, v.Flat := by
  fun_induction takeInputFrom w i taken input rows with
  | case4 _ _ _ _ _ _ lines hlines ih =>
      refine ih (List.forall_mem_append.mpr ⟨h, ?_⟩)
      exact List.forall_mem_singleton.mpr (World.allTexts_openFile hlines)
  | case6 _ _ _ _ _ _ _ ih => exact ih h
  | _ => exact h

theorem allTexts_expandFrom (h : AllTexts row) (w : World) (n i : Nat) :
    AllTexts (expandFrom w n i row).1 := by
  fun_induction expandFrom w n i row with
  | case5 _ _ _ _ _ _ _ ih => exact ih h
  | case6 _ _ _ _ paths _ _ _ _ ih =>
      exact ih ((h.of_subset List.eraseIdx_subset).append (allTexts_map paths))
  | case7 _ _ _ _ _ _ ih => exact ih h
  | _ => exact h

/-- The row of the application is made of texts. -/
theorem allTexts_expandRows (h : ∀ row ∈ rows, AllTexts row) (w : World) :
    AllTexts ((expandRows w rows).1.headD []) := by
  cases rows with
  | nil => exact allTexts_nil
  | cons row rest => exact allTexts_expandFrom (h row (by simp)) w _ _

theorem allTexts_redirect (h : AllTexts out) (rows : List Row) (w : World) :
    AllTexts (redirect rows out w).1 := by
  have hwrite : ∀ file append, AllTexts (writeOutput w file append out).1 := by
    intro file append
    fun_cases writeOutput w file append out with
    | case4 => exact allTexts_nil
    | _ => exact h
  fun_cases redirect rows out w with
  | case2 => exact hwrite _ _
  | _ => exact h

/-- A call gives out texts, and its input stays one of texts and lists of texts. -/
theorem allTexts_call (hr : ∀ row ∈ rows, AllTexts row) (hi : ∀ v ∈ input, v.Flat)
    (ho : AllTexts out) (w : World) :
    AllTexts (call rows input out w).out ∧ ∀ v ∈ (call rows input out w).input, v.Flat := by
  have htaken := flat_takeInputFrom hi w 0 none rows
  unfold call
  dsimp only
  split
  · exact ⟨ho, htaken⟩
  · split
    · exact ⟨ho, htaken⟩
    · have hrow := allTexts_expandRows
        (fun row hrow => hr row (remaining_subset rows (takeInput w rows input).taken hrow)) w
      have hadded := ho.append (allTexts_runRow hrow htaken w)
      split
      · exact ⟨hadded, htaken⟩
      · exact ⟨allTexts_redirect hadded _ _, htaken⟩

theorem allTexts_runSequence {calls : List (List Row)}
    (hr : ∀ c ∈ calls, ∀ row ∈ c, AllTexts row) (hi : ∀ v ∈ input, v.Flat) (ho : AllTexts out)
    (w : World) : AllTexts (runSequence calls input out w).out := by
  induction calls generalizing input out w with
  | nil => exact ho
  | cons c cs ih =>
      obtain ⟨hout, hinput⟩ := allTexts_call (hr c (by simp)) hi ho w
      unfold runSequence
      dsimp only
      split
      · exact hout
      · exact ih (fun d hd => hr d (by simp [hd])) hinput hout _

theorem allTexts_runPipe {calls : List (List Row)}
    (hr : ∀ c ∈ calls, ∀ row ∈ c, AllTexts row) (hi : AllTexts input) (ho : AllTexts out)
    (w : World) : AllTexts (runPipe calls input out w).out := by
  induction calls generalizing input out w with
  | nil => exact ho
  | cons c cs ih =>
      -- The output of the call before is one list, so it has to be made of texts itself.
      have hinput : ∀ v ∈ [Value.list input], v.Flat := List.forall_mem_singleton.mpr hi
      obtain ⟨hout, -⟩ := allTexts_call (hr c (by simp)) hinput allTexts_nil w
      unfold runPipe
      dsimp only
      split
      · exact hout
      · exact ih (fun d hd => hr d (by simp [hd])) hout hout _

/-- A command that is given no input gives out texts. -/
theorem allTexts_run (form : Form) (hr : ∀ row ∈ rows, AllTexts row) (ho : AllTexts out)
    (w : World) : AllTexts (run form rows [] out w).out := by
  have hcalls : ∀ c ∈ (decode rows).calls, ∀ row ∈ c, AllTexts row :=
    fun c hc row hrow => hr row (mem_of_mem_calls hc hrow)
  have hinput : ∀ v ∈ ([] : List Value), v.Flat := by simp
  have hleft : ∀ left (r : Outcome), (withLeft left r).out = r.out := by
    intro left r
    cases left <;> rfl
  cases form with
  | call => exact (allTexts_call hr hinput ho w).1
  | sequence =>
      change AllTexts (withLeft _ _).out
      rw [hleft]
      exact allTexts_runSequence hcalls hinput ho w
  | pipe =>
      change AllTexts (withLeft _ _).out
      rw [hleft]
      exact allTexts_runPipe hcalls allTexts_nil ho w

end Command

/-- A line that comes to one command gives out texts. -/
theorem allTexts_runWith {run : Text → List Value → World → Running} {line : Text} {w : World}
    {command : Form × List Nat} (h : (draftWith run line w).commands = .ok [command]) :
    AllTexts (runWith run line [] w).1 := by
  obtain ⟨form, ids⟩ := command
  have hrows : ∀ row ∈ Script.rowsAt ⟨((draftWith run line w).draft.script [(form, ids)]).rows, []⟩
      ids, AllTexts row := by
    intro row hrow
    rcases Script.eq_nil_or_mem_of_mem_rowsAt hrow with rfl | hmem
    · exact allTexts_nil
    · obtain ⟨words, -, rfl⟩ := List.mem_map.mp hmem
      exact allTexts_map words
  unfold runWith
  dsimp only
  rw [h]
  change AllTexts (Script.runFrom _ [] [] [] _ [(form, ids)]).1
  have hrun := Command.allTexts_run form hrows allTexts_nil (draftWith run line w).world
  unfold Script.runFrom
  dsimp only
  split
  · exact allTexts_nil
  · exact hrun

end CommandShell
