import CommandShell.Line
import CommandShell.Proofs.Notes

/-! # Commands that leave the files alone

All applications but two leave files and folders as they are. A command whose rows start with
neither of these, nor with an operator of output, has no effect on the files: expanding words and
reading input change no first word of a row, and commands share their rows only in this way. -/

namespace CommandShell

namespace World

/-- Nothing but the working folder and what has been printed is different. -/
def Kept (w w' : World) : Prop := ∃ here printed, w' = { w with here := here, printed := printed }

theorem kept_refl (w : World) : Kept w w := ⟨w.here, w.printed, rfl⟩

theorem Kept.trans {w w' w'' : World} (h : Kept w w') (h' : Kept w' w'') : Kept w w'' := by
  obtain ⟨here, printed, rfl⟩ := h
  obtain ⟨here', printed', rfl⟩ := h'
  exact ⟨here', printed', rfl⟩

theorem kept_print (w : World) (t : Text) : Kept w (w.print t) := ⟨w.here, w.printed ++ t, rfl⟩

end World

namespace Application

/-- The applications that change files or folders. -/
def changers : List Application := [.mkdir, .rm]

theorem kept_runCd (args : List Value) (w : World) : w.Kept (runCd args w).world := by
  unfold runCd
  split
  · exact w.kept_refl
  · exact w.kept_refl
  · split
    · exact w.kept_refl
    · split
      · exact w.kept_refl
      · split
        · exact ⟨_, w.printed, rfl⟩
        · exact w.kept_refl

section World

variable (args : List Value) (w : World)

theorem world_runLs : (runLs args w).world = w := by fun_cases runLs args w <;> rfl

theorem world_runFind : (runFind args w).world = w := by
  unfold runFind
  split
  · rfl
  · dsimp only
    split
    · rfl
    · split <;> rfl

theorem world_runCut : (runCut args w).world = w := by fun_cases runCut args w <;> rfl

theorem world_runGrep : (runGrep args w).world = w := by fun_cases runGrep args w <;> rfl

theorem world_runHead : (runHead args w).world = w := by fun_cases runHead args w <;> rfl

theorem world_runTail : (runTail args w).world = w := by fun_cases runTail args w <;> rfl

theorem world_runSort : (runSort args w).world = w := by
  unfold runSort
  split
  · rfl
  · dsimp only
    split
    · rfl
    · split <;> rfl

theorem world_runUniq : (runUniq args w).world = w := by
  unfold runUniq
  split
  · rfl
  · dsimp only
    split
    · rfl
    · split <;> rfl

theorem world_runWc : (runWc args w).world = w := by fun_cases runWc args w <;> rfl

end World

/-- What an application does that is no changer. -/
theorem kept_exec {a : Application} (h : a ∉ changers) (args : List Value) (w : World) :
    w.Kept (a.exec args w).world := by
  have hsame : ∀ {e : Effect}, e.world = w → w.Kept e.world := by
    intro e he
    rw [he]
    exact w.kept_refl
  cases a with
  | cat => exact hsame rfl
  | cd => exact kept_runCd args w
  | cut => exact hsame (world_runCut args w)
  | echo => exact hsame rfl
  | find => exact hsame (world_runFind args w)
  | grep => exact hsame (world_runGrep args w)
  | head => exact hsame (world_runHead args w)
  | ls => exact hsame (world_runLs args w)
  | mkdir => exact absurd (by decide) h
  | pwd => exact hsame rfl
  | rm => exact absurd (by decide) h
  | sort => exact hsame (world_runSort args w)
  | tail => exact hsame (world_runTail args w)
  | uniq => exact hsame (world_runUniq args w)
  | wc => exact hsame (world_runWc args w)

end Application

theorem Effect.kept_guarded {e : Effect} {w : World} (h : w.Kept e.world) :
    w.Kept e.guarded.world := by
  unfold guarded
  split
  · exact h.trans (World.kept_print _ _)
  · exact h

theorem noStar_of_isName {name : Text} (h : Application.isName name = true) : '*' ∉ name := by
  have hplain : ∀ a : Application, '*' ∉ a.name := by
    intro a
    cases a <;> decide
  obtain ⟨a, rfl | rfl⟩ := Application.isName_iff.mp h
  · exact hplain a
  · simpa using hplain a

/-- The names of the applications that change files or folders, with and without the underscore. -/
def changerNames : List Text := Application.changers.flatMap (fun a => [a.name, '_' :: a.name])

/-- The operators of output. -/
def outputOperators : List Text := [['>'], ['>', '>']]

/-- The first words that lead to changes of files. -/
def loudWords : List Text := changerNames ++ outputOperators

/-- A first word that leads to no change of files and stays when words are expanded. -/
def QuietWord (t : Text) : Prop := '*' ∉ t ∧ t ∉ loudWords

/-- A row with a quiet first word, if it has words. -/
def QuietRow (row : Row) : Prop := ∀ v ∈ row.head?, ∃ t, v = .text t ∧ QuietWord t

theorem quietRow_nil : QuietRow [] := by simp [QuietRow]

theorem quietRow_textRow {row : List Text} (h : ∀ t ∈ row.head?, QuietWord t) :
    QuietRow (row.map .text) := by
  intro v hv
  cases row with
  | nil => simp at hv
  | cons t words =>
      refine ⟨t, ?_, h t rfl⟩
      simpa using hv.symm

namespace Command

/-- The word that names an application. -/
theorem eq_name_of_application {t : Text} {a : Application} {guarded : Bool}
    (h : application (.text t) = .ok (a, guarded)) : t = a.name ∨ t = '_' :: a.name := by
  cases t with
  | nil => simp [application, Value.first?] at h
  | cons c rest =>
      cases hguarded : Value.isText ['_'] (.text [c]) with
      | true =>
          have hc : c = '_' := by simpa [Value.isText] using hguarded
          simp only [application, Value.first?, hguarded, if_true, List.drop_one,
            List.tail_cons] at h
          cases hname : Application.ofName? rest with
          | none => simp [hname] at h
          | some b =>
              have hab : b = a ∧ true = guarded := by simpa [hname] using h
              rw [hc, ← hab.1, Application.eq_name_of_ofName? hname]
              exact Or.inr rfl
      | false =>
          simp only [application, Value.first?, hguarded, Bool.false_eq_true, if_false] at h
          cases hname : Application.ofName? (c :: rest) with
          | none => simp [hname] at h
          | some b =>
              have hab : b = a ∧ false = guarded := by simpa [hname] using h
              rw [← hab.1, Application.eq_name_of_ofName? hname]
              exact Or.inl rfl

/-- A quiet word names no changer. -/
theorem application_notMem_changers {t : Text} (h : QuietWord t) {a : Application} {guarded : Bool}
    (ha : application (.text t) = .ok (a, guarded)) : a ∉ Application.changers := by
  intro hmem
  apply h.2
  apply List.mem_append_left
  rw [changerNames, List.mem_flatMap]
  refine ⟨a, hmem, ?_⟩
  simpa using eq_name_of_application ha

/-- The first word of a quiet row is not expanded. -/
theorem head?_expandFrom {row : Row} (h : QuietRow row) (w : World) (n i : Nat) :
    (expandFrom w n i row).1.head? = row.head? := by
  induction n generalizing i row with
  | zero => rfl
  | succ n ih =>
      rw [expandFrom]
      cases hi : row[i]? with
      | none => rfl
      | some word =>
          dsimp only
          by_cases hstar : word.has '*' = true
          · rw [if_pos hstar]
            cases word with
            | list xs => rfl
            | text t =>
                dsimp only
                cases i with
                | zero =>
                    rw [← List.head?_eq_getElem?] at hi
                    obtain ⟨u, hu, hquiet⟩ := h (.text t) hi
                    cases hu
                    exact absurd (by simpa [Value.has] using hstar) hquiet.1
                | succ i =>
                    obtain ⟨v, vs, rfl⟩ : ∃ v vs, row = v :: vs := by
                      cases row with
                      | nil => simp at hi
                      | cons v vs => exact ⟨v, vs, rfl⟩
                    cases w.expand t with
                    | error e => rfl
                    | ok paths =>
                        cases paths with
                        | nil => exact ih h (i + 1 + 1)
                        | cons path paths =>
                            have hrow : QuietRow ((v :: vs).eraseIdx (i + 1) ++
                                (path :: paths).map .text) := h
                            exact ih hrow (i + 1 + 1)
          · rw [if_neg hstar]
            exact ih h (i + 1)

theorem quietRow_expandRow {row : Row} (h : QuietRow row) (w : World) :
    QuietRow (expandRow w row).1 := by
  rw [QuietRow, expandRow, head?_expandFrom h]
  exact h

/-- An outcome that leaves the files alone and has only quiet rows. -/
structure Quiet (w : World) (r : Outcome) : Prop where
  kept : w.Kept r.world
  rows : ∀ row ∈ r.rows, QuietRow row

theorem kept_runRow {row : Row} (h : QuietRow row) (input : List Value) (w : World) :
    w.Kept (runRow row input w).world := by
  cases row with
  | nil => exact w.kept_refl
  | cons word words =>
      obtain ⟨t, rfl, hquiet⟩ := h word rfl
      rw [runRow]
      cases happ : application (.text t) with
      | error e => exact w.kept_refl
      | ok p =>
          obtain ⟨a, guarded⟩ := p
          dsimp only
          cases a.arguments (callArguments words input) with
          | error e => exact w.kept_refl
          | ok args =>
              have hkept := Application.kept_exec (application_notMem_changers hquiet happ) args w
              dsimp only
              split
              · exact Effect.kept_guarded hkept
              · exact hkept

/-- Without an operator of output nothing is redirected. -/
theorem redirect_of_quiet {rows : List Row} (h : ∀ row ∈ rows, QuietRow row) (out : List Value)
    (w : World) : redirect rows out w = (out, w, none) := by
  match rows with
  | [] => rfl
  | [_] => rfl
  | _ :: [] :: _ => rfl
  | _ :: (sign :: words) :: _ =>
      obtain ⟨t, rfl, hquiet⟩ := h (sign :: words) (by simp) sign rfl
      have hsign : t ≠ ['>'] ∧ t ≠ ['>', '>'] := by
        refine ⟨?_, ?_⟩
        · rintro rfl
          exact hquiet.2 (by decide)
        · rintro rfl
          exact hquiet.2 (by decide)
      have hnone :
          ¬ (Value.isText ['>'] (.text t) || Value.isText ['>', '>'] (.text t)) = true := by
        simp [Value.isText, hsign]
      exact if_neg hnone

theorem remaining_subset (rows : List Row) (taken : Option Nat) : remaining rows taken ⊆ rows := by
  cases taken with
  | none => exact List.Subset.refl rows
  | some i => exact List.eraseIdx_subset

theorem quiet_call {rows : List Row} (h : ∀ row ∈ rows, QuietRow row) (input out : List Value)
    (w : World) : Quiet w (call rows input out w) := by
  have hremaining : ∀ row ∈ remaining rows (takeInput w rows input).taken, QuietRow row :=
    fun row hrow => h row (remaining_subset rows _ hrow)
  rw [call]
  dsimp only
  cases (takeInput w rows input).fault with
  | some e => exact ⟨w.kept_refl, h⟩
  | none =>
      cases hrows : remaining rows (takeInput w rows input).taken with
      | nil => exact ⟨w.kept_refl, h⟩
      | cons row rest =>
          rw [hrows] at hremaining
          have hrow : QuietRow (expandRow w row).1 :=
            quietRow_expandRow (hremaining row (by simp)) w
          have hset : ∀ r ∈ rows.set (mainRow (takeInput w rows input).taken) (expandRow w row).1,
              QuietRow r := by
            intro r hr
            rcases List.mem_or_eq_of_mem_set hr with hr | rfl
            · exact h r hr
            · exact hrow
          have hexpanded : ∀ r ∈ (expandRow w row).1 :: rest, QuietRow r := by
            intro r hr
            rcases List.mem_cons.mp hr with rfl | hr
            · exact hrow
            · exact hremaining r (by simp [hr])
          have hkept := kept_runRow hrow (takeInput w rows input).input w
          dsimp only [expandRows]
          cases (expandRow w row).2 with
          | some e => exact ⟨w.kept_refl, hset⟩
          | none =>
              dsimp only [List.headD_cons]
              cases (runRow (expandRow w row).1 (takeInput w rows input).input w).fault with
              | some e => exact ⟨hkept, hset⟩
              | none =>
                  dsimp only
                  rw [redirect_of_quiet hexpanded]
                  exact ⟨hkept, hset⟩

theorem Quiet.rows_append {w : World} {r : Outcome} (h : Quiet w r) {more : List Row}
    (hm : ∀ row ∈ more, QuietRow row) : ∀ row ∈ r.rows ++ more, QuietRow row := by
  intro row hrow
  rcases List.mem_append.mp hrow with hrow | hrow
  · exact h.rows row hrow
  · exact hm row hrow

theorem quietRow_flatten {calls : List (List Row)} (h : ∀ c ∈ calls, ∀ row ∈ c, QuietRow row) :
    ∀ row ∈ calls.flatten, QuietRow row := by
  intro row hrow
  obtain ⟨c, hc, hrow⟩ := List.mem_flatten.mp hrow
  exact h c hc row hrow

theorem quiet_runSequence {calls : List (List Row)} (h : ∀ c ∈ calls, ∀ row ∈ c, QuietRow row)
    (input out : List Value) (w : World) : Quiet w (runSequence calls input out w) := by
  induction calls generalizing input out w with
  | nil => exact ⟨w.kept_refl, by simp [runSequence]⟩
  | cons c cs ih =>
      have hcs : ∀ c ∈ cs, ∀ row ∈ c, QuietRow row := fun x hx => h x (by simp [hx])
      have hc := quiet_call (h c (by simp)) input out w
      rw [runSequence]
      dsimp only
      cases (call c input out w).fault with
      | some e => exact ⟨hc.kept, hc.rows_append (quietRow_flatten hcs)⟩
      | none =>
          have hrest := ih hcs (call c input out w).input (call c input out w).out
            (call c input out w).world
          exact ⟨hc.kept.trans hrest.kept, hc.rows_append hrest.rows⟩

theorem quiet_runPipe {calls : List (List Row)} (h : ∀ c ∈ calls, ∀ row ∈ c, QuietRow row)
    (input out : List Value) (w : World) : Quiet w (runPipe calls input out w) := by
  induction calls generalizing input out w with
  | nil => exact ⟨w.kept_refl, by simp [runPipe]⟩
  | cons c cs ih =>
      have hcs : ∀ c ∈ cs, ∀ row ∈ c, QuietRow row := fun x hx => h x (by simp [hx])
      have hc := quiet_call (h c (by simp)) [.list input] [] w
      rw [runPipe]
      dsimp only
      cases (call c [.list input] [] w).fault with
      | some e => exact ⟨hc.kept, hc.rows_append (quietRow_flatten hcs)⟩
      | none =>
          have hrest := ih hcs (call c [.list input] [] w).out (call c [.list input] [] w).out
            (call c [.list input] [] w).world
          exact ⟨hc.kept.trans hrest.kept, hc.rows_append hrest.rows⟩

theorem quiet_withLeft {w : World} {r : Outcome} (h : Quiet w r) {left : Option (List Row)}
    (hl : ∀ row ∈ left.getD [], QuietRow row) : Quiet w (withLeft left r) := by
  cases left with
  | none => exact h
  | some rows => exact ⟨h.kept, h.rows_append hl⟩

theorem decode_flatten (rows : List Row) :
    (decode rows).calls.flatten ++ (decode rows).left.getD [] = rows := by
  cases rows with
  | nil => rfl
  | cons row rest => exact decodeAfter_rows rest [row]

theorem mem_of_mem_calls {rows c : List Row} {row : Row} (hc : c ∈ (decode rows).calls)
    (hrow : row ∈ c) : row ∈ rows := by
  rw [← decode_flatten rows]
  exact List.mem_append_left _ (List.mem_flatten.mpr ⟨c, hc, hrow⟩)

theorem quiet_run {rows : List Row} (h : ∀ row ∈ rows, QuietRow row) (form : Form)
    (input out : List Value) (w : World) : Quiet w (run form rows input out w) := by
  have hcalls : ∀ c ∈ (decode rows).calls, ∀ row ∈ c, QuietRow row :=
    fun c hc row hrow => h row (mem_of_mem_calls hc hrow)
  have hleft : ∀ row ∈ (decode rows).left.getD [], QuietRow row := by
    intro row hrow
    apply h
    rw [← decode_flatten rows]
    exact List.mem_append_right _ hrow
  cases form with
  | call => exact quiet_call h input out w
  | sequence => exact quiet_withLeft (quiet_runSequence hcalls input out w) hleft
  | pipe =>
      have hpipe := quiet_withLeft (quiet_runPipe hcalls input out w) hleft
      exact ⟨hpipe.kept, hpipe.rows⟩

end Command

namespace Script

theorem quietRow_putRows {rows : List Row} (h : ∀ row ∈ rows, QuietRow row) (ids : List Nat)
    {back : List Row} (hb : ∀ row ∈ back, QuietRow row) :
    ∀ row ∈ putRows ids back rows, QuietRow row := by
  fun_induction putRows ids back rows with
  | case1 i is row rest rows ih =>
      apply ih
      · intro r hr
        rcases List.mem_or_eq_of_mem_set hr with hr | rfl
        · exact h r hr
        · exact hb r (by simp)
      · intro r hr
        exact hb r (by simp [hr])
  | case2 => exact h

theorem eq_nil_or_mem_of_mem_rowsAt {rows : List Row} {ids : List Nat} {row : Row}
    (h : row ∈ rowsAt ⟨rows, []⟩ ids) : row = [] ∨ row ∈ rows := by
  obtain ⟨i, -, rfl⟩ := List.mem_map.mp h
  cases hi : rows[i]? with
  | none => exact Or.inl rfl
  | some r => exact Or.inr (List.mem_of_getElem? hi)

/-- A script with quiet rows leaves the files alone. -/
theorem kept_runFrom {rows : List Row} (h : ∀ row ∈ rows, QuietRow row)
    (input final out : List Value) (w : World) (commands : List (Form × List Nat)) :
    w.Kept (runFrom rows input final out w commands).2.1 := by
  induction commands generalizing rows input final out w with
  | nil => exact w.kept_refl
  | cons command rest ih =>
      obtain ⟨form, ids⟩ := command
      have hrows : ∀ row ∈ rowsAt ⟨rows, []⟩ ids, QuietRow row := by
        intro row hrow
        rcases eq_nil_or_mem_of_mem_rowsAt hrow with rfl | hmem
        · exact quietRow_nil
        · exact h row hmem
      have hrun := Command.quiet_run hrows form input final w
      rw [runFrom]
      cases (Command.run form (rowsAt ⟨rows, []⟩ ids) input final w).fault with
      | some e => exact hrun.kept
      | none => exact hrun.kept.trans (ih (quietRow_putRows h ids hrun.rows) _ _ _ _)

end Script

end CommandShell
