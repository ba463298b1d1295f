import HornSaturation.Clause.OfFormula
import HornSaturation.Proofs.Clause.Interpreted

/-!
# Clauses say what their formulas say

The conjuncts of a formula are its relation applications and its constraints, so a body is true
exactly if both are. In every interpretation of the relations the clause of a formula is therefore
true exactly if the formula is, and the clause of a query exactly if the formula is false.
-/

namespace HornSaturation

variable {z : ZeroDivision} {I : RelationId → List Value → Prop} {ρ : Valuation}
  {relations : List Relation} {t body head : Term}

namespace Term

theorem applicationsList_eq (ts : List Term) :
    applicationsList ts = ts.flatMap applications := by
  induction ts with
  | nil => rfl
  | cons t ts ih => rw [applicationsList, ih, List.flatMap_cons]

theorem constraintsList_eq (ts : List Term) : constraintsList ts = ts.flatMap constraints := by
  induction ts with
  | nil => rfl
  | cons t ts ih => rw [constraintsList, ih, List.flatMap_cons]

/-- A formula that is no conjunction is its only conjunct. -/
theorem parts_op {o : Op} (ho : o ≠ .and) (args : List Term) :
    (Term.op o args).applications = [] ∧ (Term.op o args).constraints = [.op o args] := by
  cases o <;> first | exact absurd rfl ho | exact ⟨rfl, rfl⟩

/-- A formula is true exactly if its relation applications and its constraints are. -/
theorem holdsIn_iff_parts : t.HoldsIn z I ρ ↔
    (∀ a ∈ t.applications, a.HoldsIn z I ρ) ∧ ∀ c ∈ t.constraints, c.HoldsIn z I ρ := by
  induction t using structural with
  | bool b => cases b <;> simp [applications, constraints]
  | int n => simp [applications, constraints]
  | var v => simp [applications, constraints]
  | app name r args ih => simp [applications, constraints, holdsIn_app]
  | op o args ih =>
    by_cases ho : o = .and
    · subst ho
      simp only [applications, constraints, applicationsList_eq, constraintsList_eq, holdsIn_and,
        List.forall_mem_flatMap, ← forall_and]
      exact forall₂_congr fun t ht => ih t ht
    · obtain ⟨happlications, hconstraints⟩ := parts_op ho args
      simp [happlications, hconstraints]

end Term

namespace Clause

theorem holdsIn_constraintOf? :
    ((constraintOf? t).getD (.bool true)).HoldsIn z I ρ ↔ ∀ c ∈ t.constraints, c.HoldsIn z I ρ := by
  unfold constraintOf?
  split
  · next h => simp [h]
  · exact Term.holdsIn_conjoin

/-- A clause whose body is that of a formula says that the formula implies the head. -/
theorem holdsIn_withHead {head : Option Application} :
    ({ ofBody t with head } : Clause).HoldsIn z I ρ ↔
      (t.HoldsIn z I ρ → ∃ a, head = some a ∧ a.HoldsIn z I ρ) := by
  rw [HoldsIn, condition, ofBody, holdsIn_constraintOf?, Term.holdsIn_iff_parts]
  exact and_imp.symm

/-- The clause that a body is contradictory says that the formula is not true. -/
theorem holdsIn_ofBody : (ofBody t).HoldsIn z I ρ ↔ ¬ t.HoldsIn z I ρ := by
  rw [show ofBody t = { ofBody t with head := none } from rfl, holdsIn_withHead]
  simp

/-- The clause of an implication says that the body implies the head. -/
theorem holdsIn_ofImplication? (hhead : (head.decided z I ρ).hasSort .bool = true) :
    (∀ c ∈ ofImplication? body head, c.HoldsIn z I ρ) ↔
      (body.HoldsIn z I ρ → head.HoldsIn z I ρ) := by
  unfold ofImplication?
  split
  · simp
  · simp [holdsIn_ofBody]
  · simp [holdsIn_withHead, Term.holdsIn_app]
  · have hnegate : head.negate.HoldsIn z I ρ ↔ ¬ head.HoldsIn z I ρ :=
      Term.holdsIn_negate.trans (Term.meaningIn_eq_false hhead)
    simp only [Option.mem_some_iff, forall_eq', HoldsIn, condition, ofBody,
      Term.holdsIn_iff_parts (t := body), ← holdsIn_constraintOf?, and_imp, Option.getD_some,
      reduceCtorEq, false_and, exists_false]
    refine imp_congr_right fun _ => ?_
    cases constraintOf? body <;> simp [Term.holdsIn_and, hnegate]

/-- The clause that a formula states is true exactly if the formula is. -/
theorem holdsIn_ofFormula? (h : (t.decided z I ρ).hasSort .bool = true) :
    (∀ c ∈ ofFormula? t, c.HoldsIn z I ρ) ↔ t.HoldsIn z I ρ := by
  unfold ofFormula?
  split
  · next body head =>
    rw [Term.decided_op] at h
    obtain ⟨-, a, b, hargs, ha, hb⟩ := (Term.hasSort_connective (.inl rfl)).mp h
    obtain ⟨rfl, rfl⟩ : body.decided z I ρ = a ∧ head.decided z I ρ = b := by simpa using hargs
    rw [holdsIn_ofImplication? hb]
    unfold Term.HoldsIn
    rw [Term.decided_op]
    exact (Term.holds_implication ha).symm
  · next body =>
    rw [Term.decided_op] at h
    obtain ⟨-, a, hargs, ha⟩ := Term.hasSort_not.mp h
    obtain rfl : body.decided z I ρ = a := by simpa using hargs
    simp only [Option.mem_some_iff, forall_eq']
    rw [holdsIn_ofBody]
    unfold Term.HoldsIn
    rw [Term.decided_op]
    exact (Term.holds_not ha).symm
  · rw [holdsIn_ofImplication? h]
    simp

end Clause

end HornSaturation
