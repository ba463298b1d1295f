import HornSaturation.Proofs.Run.Closure
import HornSaturation.Proofs.Run.Traces
import HornSaturation.Proofs.Solution.Interpretations

/-!
# Stored units assert consequences

Every unit of a sound store comes from clauses with heads and from units that were stored before it.
So whatever it asserts is true in every interpretation that satisfies these clauses, also after the
unit has been retired. This needs no right answer of the oracle: its refutations can only make units
redundant.
-/

namespace HornSaturation

variable {z : ZeroDivision} {I : RelationId → List Value → Prop}

/-- A clause that has an instance for an atom of a relation is no query. -/
theorem NormalizedClause.HasInstance.head_ne_none {relations : List Relation}
    {c : NormalizedClause} {body : List GroundAtom} {head : GroundAtom}
    (h : c.HasInstance z relations body head) (hhead : head.relation ≠ none) : c.head ≠ none := by
  obtain ⟨ρ, -, -, hdenotes⟩ := h
  intro hnone
  rw [hnone] at hdenotes
  exact hhead (congrArg GroundAtom.relation hdenotes)

namespace Store

variable {p : NormalizedProblem} {store : Store}

/-- What the units of a sound store assert of relations is true in every interpretation that
satisfies the clauses with heads. -/
theorem Sound.trueIn (hs : store.Sound p)
    (hI : ∀ c ∈ p.clauses, c.head ≠ none → c.SatisfiedBy z p.relations I) {id : UnitId}
    {g : GroundAtom} (hg : store.AssertsAt z id g) (hrelation : g.relation ≠ none) :
    g.TrueIn I := by
  -- A unit is derived from units with smaller identifiers.
  induction id using Nat.strong_induction_on generalizing g with
  | h id ih =>
    obtain ⟨e, he, hasserts⟩ := hg
    rw [hs.relations] at hasserts
    cases hprovenance : e.provenance with
    | fact clause =>
      obtain ⟨-, c, hc, hinst⟩ := hs.statedBy he hprovenance
      have hinst := hinst z g hasserts
      exact hI c (List.mem_of_getElem? hc) (hinst.head_ne_none hrelation) [] g hinst nofun
    | derived nucleus electrons =>
      obtain ⟨c, hc, -, hfit, hderived⟩ := hs.derivedFrom he hprovenance
      obtain ⟨body, hinst, hbody⟩ := hderived z g hasserts
      refine hI c (List.mem_of_getElem? hc) (hinst.head_ne_none hrelation) body g hinst
        fun g' hg' => ?_
      obtain ⟨i, hi, hasserts'⟩ := hbody.flip.exists_right hg'
      obtain ⟨a, -, hlt, e', he', hhead⟩ := hfit.flip.exists_right hi
      refine ih i hlt hasserts' ?_
      obtain ⟨e'', he'', hrel, -⟩ := hasserts'
      obtain rfl := Option.some.inj (he'.symm.trans he'')
      rw [← hrel, hhead]
      exact Option.some_ne_none _

end Store

variable {σ : Type} {m : Method σ} {p : Problem} {np : NormalizedProblem} {r : Run σ}

/-- In every state that a run visits, whatever its strategy and its oracle are, what a stored unit
admits for its relation belongs to it in every interpretation that satisfies the clauses with heads,
and so does what the solution of the active units admits. -/
theorem Run.Visited.within_models (hw : p.WellSorted) (hn : p.normalize = .ok np)
    (hm : m.simplifier = Term.project) (hr : r.Visited m np)
    (hI : ∀ clause ∈ p.clauses, clause.head ≠ none → clause.SatisfiedBy z I) :
    (∀ id e R xs, r.units.get? id = some e → e.unit.head = some R →
      e.unit.Admits z np.relations xs → I R xs) ∧
    ∀ symbols solution, Solution.ofStore m.simplifier symbols r.units np.relations = .ok solution →
      ∀ R xs, solution.Admits z R xs → I R xs := by
  have hform := p.normalForm_of_normalize hw hn
  have hreg := hform.regular hw
  have hs := hr.sound hreg hm
  have hI' : ∀ c ∈ np.clauses, c.head ≠ none → c.SatisfiedBy z np.relations I := by
    intro c hc hhead
    obtain ⟨i, hi⟩ := List.getElem?_of_mem hc
    obtain ⟨-, clause, hclause, hnf⟩ := hform.clause i c hi
    rw [hform.relations]
    exact hnf.satisfiedBy.mpr
      (hI clause (List.mem_of_getElem? hclause) (mt hnf.head_eq_none.mpr hhead))
  have hstored (id : UnitId) (e : StoredUnit) (R : RelationId) (xs : List Value)
      (he : r.units.get? id = some e) (hhead : e.unit.head = some R)
      (hadmits : e.unit.Admits z np.relations xs) : I R xs := by
    have hasserts : r.units.AssertsAt z id ⟨some R, xs⟩ :=
      ⟨e, he, hhead, hs.relations ▸ hadmits⟩
    obtain ⟨R', hR, htrue⟩ := hs.trueIn hI' hasserts (Option.some_ne_none R)
    exact Option.some.inj hR ▸ htrue
  refine ⟨hstored, fun symbols solution h R xs hadmits => ?_⟩
  rw [hm] at h
  obtain ⟨-, hamounts⟩ := Solution.ofStore_spec (z := z) hreg.relations hs h
  obtain ⟨i, hi, -⟩ := id hadmits
  obtain ⟨relation, hrelation⟩ := Solution.exists_relation_of_ofStore hreg.relations h hi
  obtain ⟨id, e, he, -, hhead, hasserts⟩ := (hamounts R relation xs hrelation).mp hadmits
  exact hstored id e R xs he hhead (hs.relations ▸ hasserts)

/-- An interpretation by three as the only number. -/
private def onlyThree (R : RelationId) (xs : List Value) : Prop :=
  R = 0 ∧ xs = [.int 3] ∨ R = 1 ∧ xs = []

private theorem satisfiedBy_onlyThree {clause : Clause}
    (hmem : clause ∈ Problem.threeIsPositive.clauses) (hhead : clause.head ≠ none) :
    clause.SatisfiedBy z onlyThree := by
  rw [Problem.threeIsPositive, List.mem_cons, List.mem_cons, List.mem_singleton] at hmem
  obtain rfl | rfl | rfl := hmem
  · rintro body ⟨R, xs⟩ ⟨ρ, -, -, hR, hxs⟩ -
    obtain rfl : xs = [.int 3] := by simpa [eq_comm] using hxs
    exact ⟨0, hR, .inl ⟨rfl, rfl⟩⟩
  · rintro body ⟨R, xs⟩ ⟨ρ, -, -, hR, hxs⟩ -
    obtain rfl : xs = [] := List.map_eq_nil_iff.mp hxs.symm
    exact ⟨1, hR, .inr ⟨rfl, rfl⟩⟩
  · exact absurd rfl hhead

theorem admits_only_three : ∃ e, Run.threeIsPositive.units.get? 0 = some e ∧
    e.unit.head = some 0 ∧ ∀ xs, e.unit.Admits ⟨fun _ => 0, fun _ => 0⟩
      NormalizedProblem.threeIsPositive.relations xs → xs = [.int 3] := by
  have hw : Problem.threeIsPositive.WellSorted := by decide
  have hn : Problem.threeIsPositive.normalize = .ok .threeIsPositive := by rfl
  have hr : Run.threeIsPositive.Visited .standard .threeIsPositive :=
    (Run.Visited.start _ _).advances ((Running.journaling_search {}).advances _)
  have hstored : (Run.threeIsPositive.units.get? 0).map (·.unit.head) = some (some 0) := by cbv
  obtain ⟨e, he, hhead⟩ := Option.map_eq_some_iff.mp hstored
  refine ⟨e, he, hhead, fun xs hxs => ?_⟩
  obtain ⟨-, hthree⟩ | ⟨hone, -⟩ :=
    (hr.within_models hw hn rfl fun _ => satisfiedBy_onlyThree).1 0 e 0 xs he hhead hxs
  · exact hthree
  · cases hone

end HornSaturation
