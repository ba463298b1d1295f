import HornSaturation.Proofs.Refutation.Questions
import HornSaturation.Proofs.Run.Search
import HornSaturation.Proofs.Solution.Check

/-!
# Answers

Solving keeps the store sound, whatever the strategy asks for and whatever the oracle answers. A
refutation is reconstructed from a recorded contradiction, and a solution is made of the active
units and has passed the check. So in every state in which a problem may be solved the store is
sound.
-/

namespace HornSaturation

variable {σ : Type} {m : Method σ} {p : NormalizedProblem} {c : Configuration} {r : Run σ}

namespace Running

/-- A refutation is reconstructed from a recorded contradiction. -/
def Reconstructed (p : NormalizedProblem) (r : Run σ) (refutation : Refutation) (r' : Run σ) :
    Prop :=
  ∃ r₁ root, r.Steps p r₁ ∧ Recorded r₁ root ∧
    (Refutation.ofUnit r₁.units p root).run.run r₁.workspace = (.ok refutation, r'.workspace)

/-- A solution is made of the active units, which assert the facts, and has passed the check. -/
structure Confirmed (m : Method σ) (p : NormalizedProblem) (r : Run σ) (solution : Solution)
    (r' : Run σ) : Prop where
  built : ∃ symbols, Solution.ofStore m.simplifier symbols r'.units p.relations = .ok solution
  checked : ∃ o, r.workspace.oracle.Later o ∧
    solution.checkNormalized p o = (.ok true, r'.workspace.oracle)
  facts : r.Trusts m r' fun z => r'.units.CoversFacts z p

/-- What an answer rests on. -/
structure Solved (m : Method σ) (p : NormalizedProblem) (r : Run σ) (outcome : Outcome)
    (r' : Run σ) : Prop where
  steps : r.Steps p r'
  unsat : ∀ refutation, outcome = .unsat refutation → Reconstructed p r refutation r'
  sat : ∀ solution, outcome = .sat solution → Confirmed m p r solution r'

/-- Answering for a recorded contradiction. -/
theorem ensures_refute {r₁ : Run σ} {root : UnitId} (hsteps : r.Steps p r₁)
    (hroot : Recorded r₁ root) :
    Ensures (refute p root) r₁ (Solved m p r) fun _ r' => r.Steps p r' := by
  unfold refute
  simp only [ensures_bind, ensures_get, ensures_work, ensures_pure]
  have hlater {w : Workspace} (hl : r₁.workspace.oracle.Later w.oracle) :
      r.Steps p { r₁ with workspace := w } := hsteps.trans ⟨hsteps.sound, .refl _, hl⟩
  refine ((Refutation.ofUnit_onlyAsks r₁.units p root r₁.workspace).and ensures_run).mono ?_
    fun _ _ h => hlater h.1
  rintro refutation w ⟨hl, hrun⟩
  refine ⟨hlater hl, fun refutation' h => ?_, by simp⟩
  obtain rfl := Outcome.unsat.inj h
  exact ⟨r₁, root, hsteps, hroot, hrun⟩

/-- Answering for an exhausted search. -/
theorem ensures_conclude {r₁ : Run σ} (hsteps : r.Steps p r₁)
    (hfacts : r.Trusts m r₁ fun z => r₁.units.CoversFacts z p) :
    Ensures (conclude m p) r₁ (Solved m p r) fun _ r' => r.Steps p r' := by
  unfold conclude
  simp only [ensures_bind, ensures_get, ensures_liftM, ensures_ask]
  refine ⟨fun solution hsolution => ?_, fun _ _ => hsteps⟩
  rcases hcheck : solution.checkNormalized p r₁.workspace.oracle with ⟨result, o⟩
  have hl : r₁.workspace.oracle.Later o := by
    have hasked : r₁.workspace.oracle.Asked (solution.checkNormalized p r₁.workspace.oracle).2 :=
      Solution.checkAll_asked
    rw [hcheck] at hasked
    exact hasked.toLater
  have hsteps' : r.Steps p { r₁ with workspace := { r₁.workspace with oracle := o } } :=
    hsteps.trans ⟨hsteps.sound, .refl _, hl⟩
  refine ⟨fun passed hpassed => ?_, fun _ _ => hsteps'⟩
  cases passed with
  | true =>
    refine ⟨hsteps', by simp, fun solution' h => ?_⟩
    obtain rfl := Outcome.sat.inj h
    exact ⟨⟨_, hsolution⟩, ⟨_, hsteps.later, hpassed ▸ hcheck⟩, hfacts.left hl⟩
  | false => exact ⟨hsteps', by simp, by simp⟩

/-- What solving guarantees. -/
theorem ensures_solve (hp : p.Regular) (hm : m.IsUsual) (hs : r.units.Sound p) :
    Ensures (solve m p c) r (Solved m p r) fun _ r' => r.Steps p r' := by
  have hkept : KeptBy m p fun _ _ _ => True := fun _ _ _ _ _ _ _ _ => trivial
  unfold solve
  simp only [ensures_bind]
  refine (ensures_search hp hm hkept hs fun _ _ _ _ => trivial).mono ?_ fun _ _ h => h
  intro result r₁ h
  cases result with
  | limit => exact ⟨h.steps, by simp, by simp⟩
  | refuted root => exact ensures_refute h.steps (h.recorded root rfl).recorded
  | exhausted =>
    simp only [ensures_bind]
    refine (ensures_contradictoryQuery hp p.clauses (fun _ hc => hc) h.steps.sound).mono ?_
      fun _ _ h' => h.steps.trans h'
    intro result r₂ hchecked
    have hsteps := h.steps.trans hchecked.steps
    cases result with
    | some root => exact ensures_refute hsteps (hchecked.recorded root rfl).recorded
    | none =>
      have hfacts := (h.facts rfl).left hchecked.steps.later
      exact ensures_conclude hsteps (hchecked.units rfl ▸ hfacts)

end Running

/-- The states in which a problem may be solved: the start, what solving has left behind in success
or failure, and these with another oracle and other symbols. -/
inductive Run.Reachable (m : Method σ) (p : NormalizedProblem) : Run σ → Prop where
  | start (search : σ) (oracle : Oracle) : Reachable m p (.start search p oracle)
  | solved (c : Configuration) {r : Run σ} (h : Reachable m p r) :
      Reachable m p ((Running.solve m p c).run.run r).2
  | exchanged (workspace : Workspace) {r : Run σ} (h : Reachable m p r) :
      Reachable m p { r with workspace }

/-- In every reachable state the store is sound. -/
theorem Run.Reachable.sound (hp : p.Regular) (hm : m.IsUsual) (h : r.Reachable m p) :
    r.units.Sound p := by
  induction h with
  | start search oracle => exact Store.sound_empty p
  | @solved c r _ ih =>
    have hsolve := Running.ensures_solve (c := c) hp hm ih
    unfold Ensures at hsolve
    split at hsolve
    · next heq =>
      rw [heq]
      exact hsolve.steps.sound
    · next heq =>
      rw [heq]
      exact hsolve.sound
  | exchanged workspace _ ih => exact ih

end HornSaturation
