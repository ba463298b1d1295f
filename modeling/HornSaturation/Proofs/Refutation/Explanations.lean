import HornSaturation.Proofs.Refutation.Soundness
import Mathlib

/-!
# Contradictions and their explanations

A contradiction that the oracle has found a model of is explained by a refutation, unless the oracle
does not find a model again: the steps of the derivation are asked about with all their symbols, so
a formula may need more assignments than the cap allows, or values outside the window. Then solving
fails, and the error names a step whose formulas have a model nevertheless.
-/

namespace HornSaturation

variable {σ : Type} {m : Method σ} {p : NormalizedProblem} {c : Configuration} {r r₁ : Run σ}
  {root : UnitId}

namespace Running

/-- Solving finds a contradiction: the search derives one, or it is exhausted and a clause without
body and head states one. -/
inductive Finds (m : Method σ) (p : NormalizedProblem) (c : Configuration) (r : Run σ)
    (root : UnitId) (r₁ : Run σ) : Prop
  | derived (h : (search m p c).run.run r = (.ok (.refuted root), r₁))
  | stated {r₀ : Run σ} (h₀ : (search m p c).run.run r = (.ok .exhausted, r₀))
      (h : (contradictoryQuery p.clauses).run.run r₀ = (.ok (some root), r₁))

/-- What solving does once it has found a contradiction. -/
theorem Finds.ensures_solve_iff (h : Finds m p c r root r₁) {ok : Outcome → Run σ → Prop}
    {fail : Error → Run σ → Prop} :
    Ensures (solve m p c) r ok fail ↔ Ensures (refute p root) r₁ ok fail := by
  unfold solve
  rw [ensures_bind]
  cases h with
  | derived h => exact ensures_iff_of_ok h
  | stated h₀ h =>
    rw [ensures_iff_of_ok h₀, ensures_bind, ensures_iff_of_ok h]

/-- The oracle has just been asked about a contradiction that is found. -/
theorem Finds.contradicted (hp : p.Regular) (hm : m.IsUsual) (hs : r.units.Sound p)
    (h : Finds m p c r root r₁) : r.Steps p r₁ ∧ Contradicted p r₁ root := by
  have hkept : KeptBy m p fun _ _ _ => True := fun _ _ _ _ _ _ _ _ => trivial
  have hsearch := ensures_search (c := c) hp hm hkept hs fun _ _ _ _ => trivial
  cases h with
  | derived h =>
    have hsearched := hsearch.of_ok h
    exact ⟨hsearched.steps, hsearched.recorded root rfl⟩
  | stated h₀ h =>
    have hsearched := hsearch.of_ok h₀
    have hchecked := (ensures_contradictoryQuery hp p.clauses (fun _ hc => hc)
      hsearched.steps.sound).of_ok h
    exact ⟨hsearched.steps.trans hchecked.steps, hchecked.recorded root rfl⟩

/-- What solving makes of a contradiction: a refutation, or an error that names a step which the
oracle does not find a model of, though its formulas have one. -/
inductive Explains (m : Method σ) (p : NormalizedProblem) (c : Configuration) (r r₁ : Run σ) : Prop
  | refuted (refutation : Refutation) (r' : Run σ)
      (h : (solve m p c).run.run r = (.ok (.unsat refutation), r'))
  | stuck (id : UnitId) (values : List Value) (k : Nat) (answer : Answer) (ts : List Term)
      (r' : Run σ)
      (h : (solve m p c).run.run r = (.error (.internal (.notReproducible k answer)), r'))
      (step : Refutation.IsStep p r₁.units id values k ts)
      (asked : (r₁.workspace.oracle.checkWith ts).1 = answer) (notSat : answer ≠ .sat)
      (model : ∀ z, ∃ ρ : Valuation, ∀ t ∈ ts, t.Holds z ρ)

end Running

namespace Refutation

variable {store : Store} {o : Oracle} {e : StoredUnit} {values : List Value} {k : Nat}
  {answer : Answer} {ts : List Term}

/-- The step of a unit without head has no values. -/
theorem IsStep.values_eq_nil (hs : store.Sound p) (he : store.get? root = some e)
    (hhead : e.unit.head = none) (h : IsStep p store root values k ts) : values = [] := by
  obtain ⟨e', electrons, clause, headVars, instances, s, s', he', hprov, hclause, hheadVars,
    hsorts, -⟩ := h
  obtain rfl := Option.some.inj (he.symm.trans he')
  obtain ⟨clause', hclause', hrel, -⟩ := hs.derivedFrom he hprov
  obtain rfl := Option.some.inj (hclause.symm.trans hclause')
  have hnone : clause.head = none := by
    simpa [hhead, NormalizedClause.headRelation?, eq_comm] using hrel
  rw [NormalizedClause.headArguments, hnone] at hheadVars
  obtain rfl := Except.ok.inj hheadVars
  exact List.map_eq_nil_iff.mp hsorts

/-- The step of a unit that restates a clause asks about its constraint. -/
theorem IsStep.eq_constraint (hp : p.Regular) (he : store.get? root = some e)
    (hrestates : Running.Restates p e) (h : IsStep p store root values k ts) :
    ts = [e.unit.constraint] := by
  obtain ⟨e', electrons, clause, headVars, instances, s, s', he', hprov, hclause, hheadVars,
    -, hrun, rfl⟩ := h
  obtain rfl := Option.some.inj (he.symm.trans he')
  obtain ⟨c, hc, hhead, hconstraint, hprov'⟩ := hrestates
  obtain ⟨rfl, rfl⟩ := Provenance.derived.inj (hprov.symm.trans hprov')
  obtain rfl := Option.some.inj (hclause.symm.trans (hp.of_mem hc).1)
  rw [NormalizedClause.headArguments, hhead] at hheadVars
  obtain rfl := Except.ok.inj hheadVars
  obtain rfl : [] = instances := Except.ok.inj (Prod.mk.inj hrun).1
  rw [hconstraint]
  rfl

/-- Where a contradiction has been found to have a model, so have the formulas of every step that
the oracle gets stuck at. -/
theorem StuckAt.exists_model {id : UnitId} (hp : p.Regular) (hs : store.Sound p)
    (he : store.get? root = some e) (hhead : e.unit.head = none)
    (hsort : OneSort e.unit.constraint.occurrences ∨ Running.Restates p e)
    (ho : o.assertions = []) (hanswered : o.HasAnswered [e.unit.constraint] .sat)
    (h : StuckAt p store root o id values k answer ts) :
    ∀ z, ∃ ρ : Valuation, ∀ t ∈ ts, t.Holds z ρ := by
  rcases h.admitted with rfl | ⟨e', he', hadm⟩
  · obtain ⟨o₀, hsat⟩ := hanswered
    have hasked := o₀.checkWith_asked [e.unit.constraint]
    rw [hsat] at hasked
    rcases hsort with hsort | hrestates
    · have hassertions : o₀.assertions = [] := hasked.assertions.symm.trans ho
      have hmodel (z : ZeroDivision) : e.unit.constraint.Holds z o.valuation := by
        refine Oracle.holds_of_sat_of_alone hsat z List.mem_cons_self (fun v hv w hw => ?_)
          (.inl (hs.wellFormed id e he).sorted)
        exact hsort v hv w (by simpa [hassertions] using hw)
      refine h.model e he fun z => ?_
      have harguments : e.unit.arguments p.relations = .ok [] := by
        rw [UnitClause.arguments, hhead]
      rw [h.step.values_eq_nil hs he hhead, UnitClause.admits_iff harguments]
      exact ⟨o.valuation, rfl, hmodel z⟩
    · -- The same question has been answered before, so it does not get stuck.
      have hsame := hasked.checkWith_fst [e.unit.constraint]
      rw [hsat, ← h.step.eq_constraint hp he hrestates, h.asked] at hsame
      exact absurd hsame h.notSat
  · exact h.model e' he' hadm

end Refutation

/-- The oracle has been asked about every contradiction that solving finds. If it has found a model,
solving explains the contradiction by a refutation, or else the error names a step which the oracle
does not find a model of, though there is one. -/
theorem explains_of_finds {problem : Problem} (hw : problem.WellSorted)
    (hn : problem.normalize = .ok p) (hm : m.IsUsual) (hr : r.Reachable m p)
    (ho : r.workspace.oracle.assertions = [])
    (hfinds : Running.Finds m p c r root r₁) :
    ∃ e answer, r₁.units.get? root = some e ∧ answer ≠ .unsat ∧
      r₁.workspace.oracle.HasAnswered [e.unit.constraint] answer ∧
      (answer = .sat → Running.Explains m p c r r₁) := by
  have hform := problem.normalForm_of_normalize hw hn
  have hreg := hform.regular hw
  have hs := hr.sound hreg hm
  obtain ⟨hsteps, e, answer, he, hhead, hsort, hanswered, hanswer⟩ := hfinds.contradicted hreg hm hs
  refine ⟨e, answer, he, hanswer, hanswered, ?_⟩
  rintro rfl
  have ho₁ : r₁.workspace.oracle.assertions = [] := hsteps.later.assertions.trans ho
  have hrefute : Ensures (Running.refute p root) r₁ (fun outcome _ => ∃ refutation,
        outcome = .unsat refutation) fun err _ =>
      Refutation.Stuck p r₁.units root r₁.workspace.oracle err := by
    unfold Running.refute
    simp only [ensures_bind, ensures_get, ensures_work, ensures_pure]
    exact (Refutation.ensures_ofUnit_or_stuck hreg hsteps.sound he hhead
      (.plain ho₁)).mono
      (fun refutation _ _ => ⟨refutation, rfl⟩) fun _ _ h => h
  have hsolve := (hfinds.ensures_solve_iff.mpr hrefute).and ensures_run
  unfold Ensures at hsolve
  split at hsolve
  · next outcome r' _ =>
    obtain ⟨⟨refutation, rfl⟩, hrun⟩ := hsolve
    exact .refuted refutation r' hrun
  · next err r' _ =>
    obtain ⟨⟨id, values, k, a, ts, rfl, hstuck⟩, hrun⟩ := hsolve
    exact .stuck id values k a ts r' hrun hstuck.step hstuck.asked hstuck.notSat
      (hstuck.exists_model hreg hsteps.sound he hhead hsort ho₁ hanswered)

/-- The state in which level saturation starts to look for a positive number. -/
def Run.startNoPositive : Run Saturation :=
  .start {} .noPositive { window := ⟨-4, 4⟩, cap := 100 }

/-- The state in which it has found one. -/
def Run.noPositive : Run Saturation :=
  ((Running.search .standard .noPositive {}).run.run Run.startNoPositive).2

theorem explains_noPositive :
    Running.Explains .standard .noPositive {} .startNoPositive .noPositive := by
  have hw : Problem.noPositive.WellSorted := by decide
  have hn : Problem.noPositive.normalize = .ok .noPositive := by rfl
  have hm : Method.IsUsual .standard := ⟨rfl, Subsumption.byImplication_onlyAsks⟩
  have hr : Run.startNoPositive.Reachable .standard .noPositive := .start _ _
  have hfinds : Running.Finds .standard .noPositive {} .startNoPositive 1 .noPositive :=
    .derived (Prod.ext (by cbv) rfl)
  obtain ⟨e, answer, he, -, ⟨o, ho⟩, h⟩ := explains_of_finds hw hn hm hr rfl hfinds
  have hconstraint : (Run.noPositive.units.get? 1).map (·.unit.constraint) = some (.bool true) := by
    cbv
  have hsat : (Run.noPositive.workspace.oracle.checkWith [.bool true]).1 = .sat := by cbv
  rw [he, Option.map_some, Option.some.injEq] at hconstraint
  rw [hconstraint] at ho
  have hasked := o.checkWith_asked [.bool true]
  rw [ho] at hasked
  refine h ?_
  rw [← hsat, hasked.checkWith_fst, ho]

/-- A contradiction that the oracle has found a model of, where level saturation fails to explain it
by the step of a clause. -/
def Running.Unexplained (p : NormalizedProblem) (oracle : Oracle) (k : Nat) : Prop :=
  ∃ root r₁ e a, Finds .standard p {} (.start {} p oracle) root r₁ ∧
    r₁.units.get? root = some e ∧ r₁.workspace.oracle.HasAnswered [e.unit.constraint] .sat ∧
    ((solve .standard p {}).run.run (.start {} p oracle) :
      Except Error Outcome × Run Saturation).1 = .error (.internal (.notReproducible k a))

/-- A fact about zero and a query about all numbers, with a further formula. -/
def Problem.onlyZero (further : Option Term) : Problem where
  relations := [⟨0, "P", [.int]⟩]
  clauses := [
    ⟨[], none, some ⟨0, [.int 0]⟩⟩,
    ⟨[⟨0, [.var ⟨"x", .int⟩]⟩], further, none⟩]

/-- The problem in normal form, with the conjuncts that the query then has. -/
def NormalizedProblem.onlyZero (conjuncts : List Term) : NormalizedProblem where
  relations := [⟨0, "P", [.int]⟩]
  clauses := [
    ⟨0, [], some ⟨0, 0⟩, .op .eq [.var ⟨"P@0_0", .int⟩, .int 0]⟩,
    ⟨1, [⟨0, 0⟩], none, .conjoin (.op .eq [.var ⟨"P@0_0", .int⟩, .var ⟨"x", .int⟩] :: conjuncts)⟩]

/-- A formula that is not well sorted, and so is never true. -/
def Term.equalsNotFive : Term := .op .eq [.var ⟨"y", .bool⟩, .op .not [.int 5]]

/-- The state in which the search from this fact ends. -/
def Run.foundZero (conjuncts : List Term) (oracle : Oracle) : Run Saturation :=
  ((Running.search .standard (.onlyZero conjuncts) {}).run.run
    (.start {} (.onlyZero conjuncts) oracle) : Except Error Running.SearchEnd × Run Saturation).2

/-- The search has found that the atom of the fact satisfies the query, and solving fails. -/
private theorem unexplained_of_foundZero {conjuncts : List Term} {oracle : Oracle} {a : Answer}
    (hsearch : ((Running.search .standard (.onlyZero conjuncts) {}).run.run
        (.start {} (.onlyZero conjuncts) oracle) : Except Error Running.SearchEnd × Run Saturation).1
      = .ok (.refuted 1))
    (hunit : (Run.foundZero conjuncts oracle).units.get? 1 =
      some ⟨⟨none, .positive, 0, .bool true⟩, .derived 1 [0], false⟩)
    (hanswer : Oracle.checkWith { (Run.foundZero conjuncts oracle).workspace.oracle with
        checks := 1
        asked := [oracle.assertions ++ [.equation (.var ⟨"P@0_0", .int⟩) (.int 0)]] } [.bool true] =
      (.sat, (Run.foundZero conjuncts oracle).workspace.oracle))
    (hsolve : ((Running.solve .standard (.onlyZero conjuncts) {}).run.run
        (.start {} (.onlyZero conjuncts) oracle) : Except Error Outcome × Run Saturation).1 =
      .error (.internal (.notReproducible 1 a))) :
    Running.Unexplained (.onlyZero conjuncts) oracle 1 :=
  ⟨1, .foundZero conjuncts oracle, _, a, .derived (Prod.ext hsearch rfl), hunit, ⟨_, hanswer⟩,
    hsolve⟩

/-- The cap may keep the oracle from finding the model of a step, and so may an assertion about a
variable of its clause, which projection eliminates before the contradiction is asked about. And
projection drops a symbol with the formula that says what it equals, also if that formula cannot be
true. -/
theorem unexplained_onlyZero :
    ((Problem.onlyZero none).normalize = .ok (.onlyZero []) ∧
      Running.Unexplained (.onlyZero []) { window := ⟨0, 1⟩, cap := 1 } 1 ∧
      Running.Unexplained (.onlyZero [])
        { window := ⟨0, 1⟩, cap := 100, assertions := [.op .eq [.var ⟨"x", .int⟩, .int 1]] } 1) ∧
    ((Problem.onlyZero (some .equalsNotFive)).normalize = .ok (.onlyZero [.equalsNotFive]) ∧
      Running.Unexplained (.onlyZero [.equalsNotFive]) { window := ⟨0, 1⟩, cap := 100 } 1 ∧
      ∀ z ρ, ¬ Term.equalsNotFive.Holds z ρ) := by
  have hcapped : Running.Unexplained (.onlyZero []) { window := ⟨0, 1⟩, cap := 1 } 1 :=
    unexplained_of_foundZero (a := .unknown) (by cbv) (by cbv) (by cbv) (by cbv)
  have hasserted : Running.Unexplained (.onlyZero [])
      { window := ⟨0, 1⟩, cap := 100, assertions := [.op .eq [.var ⟨"x", .int⟩, .int 1]] } 1 :=
    unexplained_of_foundZero (a := .unsat) (by cbv) (by cbv) (by cbv) (by cbv)
  have hfive : Running.Unexplained (.onlyZero [.equalsNotFive])
      { window := ⟨0, 1⟩, cap := 100 } 1 :=
    unexplained_of_foundZero (a := .unknown) (by cbv) (by cbv) (by cbv) (by cbv)
  refine ⟨⟨rfl, hcapped, hasserted⟩, rfl, hfive, fun z ρ h => ?_⟩
  obtain ⟨x, -, hx⟩ := Term.holds_equation.mp h
  simp [Term.meaning_op, Op.value, Value.toBool?] at hx

end HornSaturation
