import HornSaturation.Proofs.Offsets.Terms

/-!
# Problems by offsets

The reader by offsets reads the same problems out of texts as the one that takes characters off a
list, and finds the same faults, given more rounds than there are characters in the text.
-/

namespace HornSaturation.Reader.ByOffset

variable {α β : Type} {text : String} {rounds : Nat} {n m k : Nat}

theorem mirrors_readSorts (text : String) (rounds : Nat) (hn : k ≤ n) (hm : k ≤ m) :
    Mirrors text rounds (Short k) (readSorts text rounds n) (readSortsWithin m)
      fun _ => Short k := by
  induction n generalizing m k with
  | zero =>
    obtain rfl : k = 0 := Nat.le_zero.mp hn
    exact .of_short_zero
  | succ n ih =>
    cases m with
    | zero =>
      obtain rfl : k = 0 := Nat.le_zero.mp hm
      exact .of_short_zero
    | succ m =>
      rw [readSorts, readSortsWithin]
      refine mirrors_list (.pure fun _ hc => hc) ?_
      refine mirrors_readSort.bind fun sort => (ih ?_ ?_).bind fun sorts => ?_
      · omega
      · omega
      · exact .pure fun c hc => hc.mono (Nat.sub_le k 1)

/-- What is left of the input bounds the number of its sorts. -/
theorem Mirrors.readSorts {f : List BaseSort → Step α} {g : List BaseSort → Read α}
    {R : α → Cursor → Prop} (h : ∀ sorts, Mirrors text rounds (Short n) (f sorts) (g sorts) R) :
    Mirrors text rounds (Short n) (do f (← readSorts text rounds rounds))
      (do g (← readSortsWithin ((← get).cursor.rest.length + 1))) R := by
  intro s hin hshort
  have hsorts := (mirrors_readSorts text rounds hin.length_lt le_rfl).relax le_rfl hshort
  exact hsorts.bind h s hin (Nat.lt_succ_self _)

theorem Mirrors.weaken {x : Step α} {y : Read α}
    (h : Mirrors text rounds (Short n) x y fun _ => Short (n - 1)) :
    Mirrors text rounds (Short n) x y fun _ => Short n := h.relax le_rfl (Nat.sub_le n 1)

theorem mirrors_readRelation (isFunction : Bool) :
    Mirrors text rounds (Short n) (readRelation text rounds isFunction)
      (Reader.readRelation isFunction) fun _ => Short n := by
  refine mirrors_readSymbol.weaken.bind fun name => mirrors_blanks.bind fun _ => ?_
  refine (mirrors_expect rfl).weaken.bind fun _ => .readSorts fun sorts => ?_
  refine (mirrors_expect rfl).weaken.bind fun _ => ?_
  cases isFunction with
  | false => exact (Still.modifyProblem (·.declare name sorts)).mirrors
  | true =>
    refine mirrors_readSort.weaken.bind fun sort => ?_
    by_cases hsort : sort ≠ .bool
    · rw [if_pos hsort, if_pos hsort]
      exact .fail
    · rw [if_neg hsort, if_neg hsort]
      exact (Still.modifyProblem (·.declare name sorts)).mirrors

theorem mirrors_readVariable :
    Mirrors text rounds (Short n) (readVariable text rounds) Reader.readVariable fun _ => Short n :=
  mirrors_readSymbol.weaken.bind fun name => mirrors_readSort.weaken.bind fun sort =>
    (Still.setSort name (some sort)).mirrors

theorem mirrors_readRule :
    Mirrors text rounds (Short n) (readRule text rounds) Reader.readRule fun _ => Short n := by
  refine mirrors_readTerm.weaken.bind fun t => ?_
  cases Clause.ofFormula? t with
  | some clause => exact (Still.modifyProblem (·.addClause clause)).mirrors
  | none => exact .pure fun _ hc => hc

/-- The query for a relation depends on the problem only. -/
theorem still_emptinessQuery (name : String) : Still (do
    match (← get).problem.named? name with
    | some r => Reader.modifyProblem (·.addClause (emptinessQuery r))
    | none => Reader.fail (.unknownQueryRelation name)) := by
  intro s c
  have hget (s : Reading) : (get : Read Reading).run s = .ok (s, s) := rfl
  rw [run_bind_of_eq (hget _), run_bind_of_eq (hget _)]
  change (match s.problem.named? name with | some _ => _ | none => _ : Read Unit).run _ = _
  cases s.problem.named? name <;> rfl

theorem mirrors_readQuery :
    Mirrors text rounds (Short n) (readQuery text rounds) Reader.readQuery fun _ => Short n := by
  refine mirrors_current?.bind fun next => ?_
  by_cases hparen : next = some '('
  · rw [if_pos hparen, if_pos hparen]
    refine (mirrors_readTerm.weaken.mono (fun _ hc => hc.1) fun _ _ hc => hc).bind fun t => ?_
    exact (Still.modifyProblem (·.addClause (.ofBody t))).mirrors
  · rw [if_neg hparen, if_neg hparen]
    refine (mirrors_readSymbol.weaken.mono (fun _ hc => hc.1) fun _ _ hc => hc).bind fun name => ?_
    exact (still_emptinessQuery name).mirrors

theorem mirrors_finishCommand : Mirrors text rounds (Short n) (finishCommand text rounds)
    Reader.finishCommand fun _ => Short n :=
  mirrors_blanks.bind fun _ => (mirrors_expect rfl).weaken

theorem Mirrors.finish {x : Step Unit} {y : Read Unit}
    (h : Mirrors text rounds (Short n) x y fun _ => Short n) :
    Mirrors text rounds (Short n) (do x; finishCommand text rounds) (do y; Reader.finishCommand)
      fun _ => Short n := h.bind fun _ => mirrors_finishCommand

theorem mirrors_skipGroup : Mirrors text rounds (Short n) (skipGroup text 1 rounds)
    (Reader.move Cursor.skipGroup) fun _ => Short n := by
  refine (tracks_skipGroup rounds 0).mirrors fun c hc => ?_
  exact Nat.lt_of_le_of_lt (local_skipGroup.length_le (scan_move Cursor.skipGroup)) hc

theorem run_peek? (s : Reading) : peek?.run s = .ok (s.cursor.peek?, s) := rfl

theorem run_skipBlanks_of_eq {s : Reading} (h : s.cursor.skipBlanks = s.cursor) :
    Reader.skipBlanks.run s = .ok ((), s) := by
  change Except.ok ((), s.withCursor s.cursor.skipBlanks) = _
  rw [h]
  rfl

/-- What is read only before the end of the text. -/
theorem Mirrors.beforeEnd {P : Cursor → Prop} {R : Unit → Cursor → Prop} {x : Step Unit}
    {y : Read Unit} (h : Mirrors text rounds (fun c => P c ∧ c.rest ≠ []) x y R)
    (hend : ∀ c, P c → c.rest = [] → R () c) :
    Mirrors text rounds P (do if ← inText text then x) (do if (← peek?).isSome then y) R := by
  intro s hin hP
  rw [run_bind_of_eq (run_peek? s)]
  cases hrest : s.cursor.rest with
  | nil =>
    rw [result_bind_of_ok (result_inText_nil hin.inText hrest), Cursor.peek?, hrest]
    exact ⟨rfl, hin, hend s.cursor hP hrest⟩
  | cons ch cs =>
    rw [result_bind_of_ok (result_inText_cons hin.inText hrest), Cursor.peek?, hrest]
    exact h s hin ⟨hP, hrest ▸ List.cons_ne_nil ch cs⟩

/-- Where no command follows, nothing is left. -/
theorem mirrors_readCommand : Mirrors text rounds (Short (n + 1)) (readCommand text rounds)
    (do Reader.skipBlanks; if (← peek?).isSome then Reader.readCommand)
    fun _ c => Short n c ∨ c.rest = [] := by
  refine mirrors_skipBlanks.bind fun _ => .beforeEnd ?_ fun c _ hrest => .inr hrest
  refine Mirrors.mono (P := Short (n + 1)) (Q := fun _ => Short n) ?_ (fun c hc => hc.1.1)
    fun _ c hc => .inl hc
  refine (mirrors_expect rfl).bind fun _ => mirrors_blanks.bind fun _ =>
    mirrors_readSymbol.weaken.bind fun name => mirrors_blanks.bind fun _ => ?_
  split
  · exact mirrors_readSymbol.weaken.bind fun _ => mirrors_finishCommand
  · exact (mirrors_readRelation false).finish
  · exact (mirrors_readRelation true).finish
  · exact mirrors_readVariable.finish
  · exact mirrors_readVariable.finish
  · exact mirrors_readRule.finish
  · exact mirrors_readRule.finish
  · exact mirrors_readQuery.finish
  · next h₁ h₂ h₃ h₄ h₅ h₆ h₇ h₈ =>
    simpa only [h₁, h₂, h₃, h₄, h₅, h₆, h₇, h₈, Nat.add_sub_cancel] using mirrors_skipGroup

/-- A command is read where one starts. -/
theorem mirrors_nextCommand : Mirrors text rounds
    (fun c => (Short (n + 1) c ∧ c.skipBlanks = c) ∧ c.rest ≠ [])
    (readCommand text rounds) Reader.readCommand fun _ => Short n := by
  rintro s hin ⟨⟨hshort, hblanks⟩, hrest⟩
  have hpositive : 0 < n :=
    Nat.lt_of_lt_of_le (List.length_pos_iff.mpr hrest) (Nat.le_of_lt_succ hshort)
  have hcommand : Mirrors text rounds (Short (n + 1)) (readCommand text rounds)
      (do Reader.skipBlanks; if (← peek?).isSome then Reader.readCommand) fun _ => Short n := by
    refine mirrors_readCommand.mono (fun _ hc => hc) ?_
    rintro _ c (hc | hend)
    · exact hc
    · rw [Short, hend]
      exact hpositive
  have hnext : s.cursor.peek?.isSome = true := by
    rw [Cursor.peek?, List.isSome_head?]
    simpa using hrest
  have hcommand := hcommand s hin hshort
  rwa [run_bind_of_eq (run_skipBlanks_of_eq hblanks), run_bind_of_eq (run_peek? s),
    if_pos hnext] at hcommand

theorem mirrors_readCommands (hn : k ≤ n) (hm : k ≤ m + 1) : Mirrors text rounds (Short k)
    (readCommands text rounds n) (readCommandsWithin m) fun _ c => c.rest = [] := by
  induction n generalizing m k with
  | zero =>
    obtain rfl : k = 0 := Nat.le_zero.mp hn
    exact .of_short_zero
  | succ n ih =>
    intro s hin hshort
    rw [readCommands]
    cases hrest : s.cursor.rest with
    | nil =>
      have hrun : (readCommandsWithin m).run s = .ok ((), s) := by
        cases m with
        | zero => rfl
        | succ m =>
          rw [readCommandsWithin, run_bind_of_eq (run_skipBlanks_of_eq (skipBlanks_of_nil hrest)),
            run_bind_of_eq (run_peek? s), Cursor.peek?, hrest]
          rfl
      rw [result_bind_of_ok (result_inText_nil hin.inText hrest), hrun]
      exact ⟨rfl, hin, hrest⟩
    | cons ch cs =>
      rw [Short, hrest, List.length_cons] at hshort
      obtain ⟨k, rfl⟩ : ∃ l, k = l + 1 := ⟨k - 1, by omega⟩
      obtain ⟨m, rfl⟩ : ∃ l, m = l + 1 := ⟨m - 1, by omega⟩
      have hloop : Mirrors text rounds (Short (k + 1))
          (do
            skipBlanks text rounds
            if ← inText text then
              readCommand text rounds
              readCommands text rounds n)
          (readCommandsWithin (m + 1)) fun _ c => c.rest = [] := by
        rw [readCommandsWithin]
        refine mirrors_skipBlanks.bind fun _ => .beforeEnd ?_ fun c _ hrest => hrest
        exact mirrors_nextCommand.bind fun _ => ih (by omega) (by omega)
      rw [result_bind_of_ok (result_inText_cons hin.inText hrest)]
      refine hloop s hin ?_
      rw [Short, hrest]
      exact hshort

/-- Reading by offsets ends on every text, with the problem or the fault that reading off the list
of its characters comes to. -/
theorem read_eq (h : text.utf8ByteSize < rounds) :
    read text rounds = some ((Problem.read text).mapError .fault) := by
  let s : Reading := { cursor := .start text }
  have hin : s.cursor.Within text rounds :=
    ⟨.start text, Nat.lt_of_le_of_lt (Cursor.In.start text).length_le h⟩
  have hread : read text rounds = (result (readCommands text rounds rounds) s.atOffset).map
      fun r => r.map fun r => r.2.problem := rfl
  have hproblem : Problem.read text =
      ((readCommandsWithin text.toList.length).run s).map fun r => r.2.problem := rfl
  have h := mirrors_readCommands (k := text.toList.length + 1) (m := text.toList.length)
    hin.length_lt le_rfl s hin (Nat.lt_succ_self _)
  rw [hread, hproblem]
  cases hrun : (readCommandsWithin text.toList.length).run s with
  | error e =>
    rw [hrun] at h
    rw [h]
    rfl
  | ok r =>
    rw [hrun] at h
    rw [h.1]
    rfl

end HornSaturation.Reader.ByOffset
