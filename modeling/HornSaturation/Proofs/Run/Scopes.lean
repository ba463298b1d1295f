import HornSaturation.Proofs.Refutation.Scopes
import HornSaturation.Proofs.Run.Closure
import HornSaturation.Proofs.Run.Journal
import HornSaturation.Proofs.Run.Settling

/-!
# Solving leaves no scope open

Every question of a run is put in a scope of its own, and every way out of the scope closes it. So
whatever is asserted and however many scopes are open when a problem is solved, the same is asserted
and the same scopes are open afterwards, also if solving fails.
-/

namespace HornSaturation

variable {σ : Type} {m : Method σ} {p : NormalizedProblem} {r r' : Run σ} {es : List Entry}

/-- Settling a unit leaves assertions and scopes as they were. -/
theorem Running.sameScopes_settle (hm : m.subsumption.KeepsScopes) (u : UnitClause)
    (pr : Provenance) (r : Run σ) : r.workspace.oracle.SameScopes
      ((settle m u pr).run.run r).2.workspace.oracle := by
  have hclassified := sameScopes_classify hm r.units u r.workspace.oracle
  have hsettle : Ensures (settle m u pr) r
      (fun _ r' => r.workspace.oracle.SameScopes r'.workspace.oracle)
      fun _ r' => r.workspace.oracle.SameScopes r'.workspace.oracle := by
    refine (ensures_settle_eq m u pr r).mono (fun _ r' h => ?_) fun _ r' h => ?_
    · exact h.workspace ▸ hclassified
    · exact h.2 ▸ hclassified
  exact hsettle.final

namespace Run

/-- Every step leaves assertions and scopes as they were. -/
theorem Writes.sameScopes (hm : m.subsumption.KeepsScopes) (h : r.Writes m p es r') :
    r.workspace.oracle.SameScopes r'.workspace.oracle := by
  cases h with
  | @settled r₁ u pr _ _ horacle _ => exact horacle ▸ Running.sameScopes_settle hm u pr r₁
  | recorded => exact .refl _
  | aside _ hl _ => exact hl.sameScopes

theorem Journals.sameScopes (hm : m.subsumption.KeepsScopes) (h : r.Journals m p es r') :
    r.workspace.oracle.SameScopes r'.workspace.oracle := by
  induction h with
  | refl => exact .refl _
  | tail _ hstep ih => exact ih.trans (hstep.sameScopes hm)

end Run

/-- Whatever is asserted and whichever scopes are open, solving, classifying a unit, looking for
redundant ones, checking validity, reconstructing and checking refutations and checking solutions
leave it so, with whatever result. Where formulas are found one after the other, this is no matter
of gathering them beforehand: opening a scope first and closing it on each way out is the same. -/
theorem scopes_balanced (hm : m.subsumption.KeepsScopes) (o : Oracle) :
    (∀ p c (r : Run σ), r.workspace.oracle = o →
      o.SameScopes ((Running.solve m p c).run.run r).2.workspace.oracle) ∧
    (∀ store u, o.SameScopes (classify m.subsumption store u o).2 ∧
      o.SameScopes (Subsumption.byImplication.forward store u o).2 ∧
      o.SameScopes (Subsumption.byImplication.backward store u o).2 ∧
      o.SameScopes (hasContradiction u o).2 ∧ o.SameScopes (isInfeasible u.constraint o).2) ∧
    (∀ t, o.SameScopes (o.checkValid t).2) ∧
    (∀ store p root symbols, o.SameScopes
      ((Refutation.ofUnit store p root).run.run ⟨o, symbols⟩).2.oracle) ∧
    (∀ p (refutation : Refutation), o.SameScopes (refutation.check p o).2) ∧
    (∀ p (solution : Solution), o.SameScopes (solution.check p o).2 ∧
      ∀ np, o.SameScopes (solution.checkNormalized np o).2) ∧
    Refutation.expandNode = Refutation.expandInScope ∧
    ∀ p (refutation : Refutation) w, (refutation.checkInScopes p).run.run w =
      ((refutation.check p w.oracle).1, { w with oracle := (refutation.check p w.oracle).2 }) := by
  refine ⟨?_, fun store u => ⟨sameScopes_classify hm store u o, ?_⟩,
    fun t => (o.checkValid_asked t).toLater.sameScopes, ?_, fun p refutation =>
      refutation.sameScopes_check p o, fun p solution =>
        ⟨Solution.checkAll_asked.toLater.sameScopes, fun np =>
          Solution.checkAll_asked.toLater.sameScopes⟩, ?_, fun p refutation w =>
            refutation.checkInScopes_run p w⟩
  · rintro p c r rfl
    obtain ⟨es, hes⟩ := (Running.journaling_solve c).journals r
    exact hes.sameScopes hm
  · have hkeeps := Subsumption.byImplication_onlyAsks.keepsScopes
    exact ⟨hkeeps.forward store u o, hkeeps.backward store u o,
      (hasContradiction_spec rfl).1.sameScopes, (isInfeasible_spec rfl).1.sameScopes⟩
  · intro store p root symbols
    exact (Refutation.ofUnit_onlyAsks store p root ⟨o, symbols⟩).final.sameScopes
  · funext store relations clause headArguments electrons drafts i
    exact Refutation.expandNode_eq_inScope headArguments electrons drafts i

theorem scopes_balanced_threeIsPositive :
    let o : Oracle :=
      { window := ⟨-4, 4⟩, cap := 100, assertions := [.bool true], frames := [1, 0] }
    Method.standard.subsumption.KeepsScopes ∧ o.SameScopes
      ((Running.solve .standard .threeIsPositive {}).run.run
        (.start {} .threeIsPositive o)).2.workspace.oracle := by
  intro o
  have hkeeps : Method.standard.subsumption.KeepsScopes :=
    Subsumption.byImplication_onlyAsks.keepsScopes
  exact ⟨hkeeps, (scopes_balanced hkeeps o).1 _ _ _ rfl⟩

end HornSaturation
