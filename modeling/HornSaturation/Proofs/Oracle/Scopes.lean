import HornSaturation.Proofs.Data.Ensures
import HornSaturation.Proofs.Inference.Redundancy
import HornSaturation.Proofs.Solution.Check

/-!
# Scopes

Whoever asks the oracle leaves its assertions and its open scopes as they were. A step may also work
in a scope of its own, which is opened first and closed on success and on failure alike.
-/

namespace HornSaturation

namespace Oracle

variable {o o' o'' : Oracle}

/-- The assertions and the open scopes are as before. -/
structure SameScopes (o o' : Oracle) : Prop where
  assertions : o'.assertions = o.assertions
  frames : o'.frames = o.frames

theorem SameScopes.refl (o : Oracle) : o.SameScopes o := ⟨rfl, rfl⟩

theorem SameScopes.trans (h : o.SameScopes o') (h' : o'.SameScopes o'') : o.SameScopes o'' :=
  ⟨h'.assertions.trans h.assertions, h'.frames.trans h.frames⟩

theorem Later.sameScopes (h : o.Later o') : o.SameScopes o' := ⟨h.assertions, h.frames⟩

/-- Nothing is left of a scope in which formulas have only been asserted. -/
theorem pop_foldl_assert (ts : List Term) (o : Oracle) : (ts.foldl assert o.push).pop = o := by
  rw [foldl_assert]
  simp [push, pop]

/-- A check of formulas is one in a scope in which they are asserted. -/
theorem checkWith_eq_pop (o : Oracle) (ts : List Term) : o.checkWith ts =
    ((ts.foldl assert o.push).check.1, (ts.foldl assert o.push).check.2.pop) := rfl

/-- Values are read off the model, whatever is asserted. -/
theorem eval_pop (o : Oracle) (t : Term) : o.pop.eval t = o.eval t := by
  unfold pop
  split <;> rfl

end Oracle

namespace Working

variable {α : Type} {step step' : Working α} {w : Workspace} {ok : α → Workspace → Prop}
  {fail : Error → Workspace → Prop}

/-- Works in a scope of its own, which is closed whether the step succeeds or fails. -/
def inScope (step : Working α) : Working α :=
  ExceptT.mk fun w =>
    let (result, w) := step.run.run { w with oracle := w.oracle.push }
    (result, { w with oracle := w.oracle.pop })

/-- Asserts a formula. -/
def assert (t : Term) : Working Unit := modify fun w => { w with oracle := w.oracle.assert t }

@[simp] theorem ensures_inScope : Ensures (inScope step) w ok fail ↔
    Ensures step { w with oracle := w.oracle.push }
      (fun a w' => ok a { w' with oracle := w'.oracle.pop })
      fun e w' => fail e { w' with oracle := w'.oracle.pop } := by
  have hrun : ((inScope step).run.run w : Except Error α × Workspace) =
      ((step.run.run { w with oracle := w.oracle.push } : Except Error α × Workspace).1,
        { (step.run.run { w with oracle := w.oracle.push } : Except Error α × Workspace).2 with
          oracle := (step.run.run { w with
            oracle := w.oracle.push } : Except Error α × Workspace).2.oracle.pop }) := rfl
  unfold Ensures
  rw [hrun]
  rcases (step.run.run { w with oracle := w.oracle.push } : Except Error α × Workspace) with
    ⟨_ | _, _⟩ <;> rfl

@[simp] theorem ensures_assert {t : Term} {ok : Unit → Workspace → Prop} :
    Ensures (assert t) w ok fail ↔ ok () { w with oracle := w.oracle.assert t } := .rfl

@[simp] theorem ensures_forM_assert {ts : List Term} {ok : PUnit → Workspace → Prop} :
    Ensures (ts.forM assert) w ok fail ↔
      ok ⟨⟩ { w with oracle := ts.foldl Oracle.assert w.oracle } := by
  induction ts generalizing w with
  | nil => rfl
  | cons t ts ih =>
    rw [List.forM, ensures_bind, ensures_assert, ih]
    rfl

/-- A step that guarantees all that another one guarantees is the same. -/
theorem eq_of_ensures (h : ∀ w (ok : α → Workspace → Prop) (fail : Error → Workspace → Prop),
    Ensures step w ok fail → Ensures step' w ok fail) : step' = step := by
  funext w
  have hsame := h w _ _ ensures_run
  unfold Ensures at hsame
  rcases hrun : (step'.run.run w : Except Error α × Workspace) with ⟨_ | _, _⟩
  all_goals
    rw [hrun] at hsame
    exact hrun.trans hsame.symm

end Working

/-- Looking for redundant units leaves assertions and scopes as they were. -/
structure Subsumption.KeepsScopes (s : Subsumption) : Prop where
  forward (store : Store) (u : UnitClause) (o : Oracle) : o.SameScopes (s.forward store u o).2
  backward (store : Store) (u : UnitClause) (o : Oracle) : o.SameScopes (s.backward store u o).2

theorem Subsumption.OnlyAsks.keepsScopes {s : Subsumption} (h : s.OnlyAsks) : s.KeepsScopes where
  forward store u o := (h.forward store u o).sameScopes
  backward store u o := (h.backward store u o).sameScopes

/-- Classifying a unit leaves assertions and scopes as they were. -/
theorem sameScopes_classify {s : Subsumption} (hs : s.KeepsScopes) (store : Store) (u : UnitClause)
    (o : Oracle) : o.SameScopes (classify s store u o).2 := by
  unfold classify
  split
  · split
    · next h => exact (hasContradiction_spec h).1.sameScopes
    · next h => exact (hasContradiction_spec h).1.sameScopes
  split
  · next h => exact (isInfeasible_spec h).1.sameScopes
  next o₁ h =>
  have hfeasible := (isInfeasible_spec h).1.sameScopes
  split
  · exact hfeasible
  have hforward := hs.forward store u o₁
  split
  · next h =>
    rw [h] at hforward
    exact hfeasible.trans hforward
  · next o₂ h =>
    rw [h] at hforward
    exact (hfeasible.trans hforward).trans (hs.backward store u o₂)

end HornSaturation
