import HornSaturation.Proofs.Clause.Admission
import HornSaturation.Proofs.Term.Mentions

/-!
# Relation applications in normalized constraints

A relation application in the constraint of a clause is refused, but in an argument of an
application it is not. The arguments become sides of equations in the normalized constraint, so this
constraint applies exactly the relations that are applied in arguments of the clause, at any depth.
-/

namespace HornSaturation

/-- All constraints of a problem apply relations of some kind only. -/
def NormalizedProblem.AppliesOnly (S : RelationId → Prop) (p : NormalizedProblem) : Prop :=
  ∀ c ∈ p.clauses, c.constraint.AppliesOnly S

/-- A relation is applied in an argument of an application of a clause. -/
def Clause.Nests (c : Clause) (r : RelationId) : Prop :=
  ∃ a ∈ c.applications, ∃ t ∈ a.args, t.Applies r

namespace Clause

variable {relations : List Relation} {index : Nat} {c : Clause} {nc : NormalizedClause}
  {r : RelationId}

/-- No relation is applied in an argument exactly if no argument contains an application. -/
theorem not_nests_iff : (∀ r, ¬ c.Nests r) ↔
    ∀ a ∈ c.applications, ∀ t ∈ a.args, t.containsApp = false := by
  simp only [Term.containsApp_eq_false, Nests, Term.AppliesOnly]
  constructor
  · intro h a ha t ht r hr
    exact h r ⟨a, ha, t, ht, hr⟩
  · rintro h r ⟨a, ha, t, ht, hr⟩
    exact h a ha t ht r hr

/-- A clause that is normalized has a constraint without relation applications. -/
theorem hasAppliedConstraint_of_normalize (h : c.normalize relations index = .ok nc) :
    c.hasAppliedConstraint = false := by
  unfold normalize at h
  cases hreserved : c.reservedVar? with
  | some v =>
    rw [hreserved] at h
    cases h
  | none =>
    rw [hreserved] at h
    obtain ⟨equations, -, h⟩ := Except.bind_eq_ok.mp h
    dsimp only at h
    split at h
    · cases h
    · next hnot => exact Bool.not_eq_true _ ▸ hnot

theorem not_applies_of_normalize (h : c.normalize relations index = .ok nc) {t : Term}
    (ht : t ∈ c.constraint.toList) : ¬ t.Applies r := by
  have happlied := hasAppliedConstraint_of_normalize h
  rw [hasAppliedConstraint, Option.mem_toList.mp ht] at happlied
  exact Term.containsApp_eq_false.mp happlied r

theorem appliesOnly_condition (h : c.normalize relations index = .ok nc)
    (S : RelationId → Prop) : c.condition.AppliesOnly S := by
  unfold condition
  cases hc : c.constraint with
  | none => exact Term.appliesOnly_bool true
  | some t => exact fun r hr => absurd hr (not_applies_of_normalize h (by simp [hc]))

/-- The equations of a use apply the relations that its terms apply. -/
theorem applies_bindArguments {use : Atom × List Term} {equations : List Term}
    (hlength : ∀ vars, use.1.arguments relations = .ok vars → vars.length = use.2.length)
    (h : bindArguments relations use = .ok equations) :
    (∃ e ∈ equations, e.Applies r) ↔ ∃ t ∈ use.2, t.Applies r := by
  obtain ⟨vars, hvars, rfl⟩ := bindArguments_eq_ok.mp h
  have hside (v : Var) (t : Term) :
      (Term.equation (.var v) t).Applies r ↔ t.Applies r := by
    simp [Term.Applies]
  rw [← List.map_uncurry_zip_eq_zipWith]
  constructor
  · rintro ⟨e, he, hr⟩
    obtain ⟨⟨v, t⟩, hmem, rfl⟩ := List.mem_map.mp he
    exact ⟨t, (List.of_mem_zip hmem).2, (hside v t).mp hr⟩
  · rintro ⟨t, ht, hr⟩
    have hsnd : (vars.zip use.2).map Prod.snd = use.2 :=
      List.map_snd_zip (Nat.le_of_eq (hlength vars hvars).symm)
    rw [← hsnd] at ht
    obtain ⟨⟨v, t⟩, hmem, rfl⟩ := List.mem_map.mp ht
    exact ⟨_, List.mem_map_of_mem hmem, (hside v t).mpr hr⟩

/-- A normalized constraint applies the relations that are applied in arguments. -/
theorem applies_constraint_iff (ha : c.HasArities relations)
    (h : c.normalize relations index = .ok nc) : nc.constraint.Applies r ↔ c.Nests r := by
  obtain ⟨equations, heqs, -, -, -, hconstraint, -⟩ := normalize_spec h
  have hside {use : Atom × List Term} (huse : use ∈ c.numbered) {eqs : List Term}
      (hbind : bindArguments relations use = .ok eqs) :
      (∃ e ∈ eqs, e.Applies r) ↔ ∃ t ∈ use.2, t.Applies r :=
    applies_bindArguments (fun _ => ha.length_eq huse) hbind
  rw [hconstraint, Term.Applies, Term.mentions_conjoin]
  constructor
  · rintro ⟨e, he, hr⟩
    rcases List.mem_append.mp he with he | he
    · obtain ⟨eqs, heqmem, he⟩ := List.mem_flatten.mp he
      obtain ⟨use, huse, hbind⟩ := heqs.flip.exists_right heqmem
      obtain ⟨t, ht, hr⟩ := (hside huse hbind).mp ⟨e, he, hr⟩
      obtain ⟨a, ha, -, hargs⟩ := exists_application huse
      exact ⟨a, ha, t, hargs ▸ ht, hr⟩
    · exact absurd hr (not_applies_of_normalize h he)
  · rintro ⟨a, ha, t, ht, hr⟩
    obtain ⟨use, huse, -, hargs⟩ := c.numbered_spec.exists_right ha
    obtain ⟨eqs, heqmem, hbind⟩ := heqs.exists_right huse
    obtain ⟨e, he, hr⟩ := (hside huse hbind).mpr ⟨t, hargs ▸ ht, hr⟩
    exact ⟨e, List.mem_append_left _ (List.mem_flatten.mpr ⟨eqs, heqmem, he⟩), hr⟩

end Clause

/-- Normalization keeps the relations that are applied in arguments, and brings in no others. -/
theorem Problem.applies_iff_of_normalize {p : Problem} {np : NormalizedProblem}
    (h : p.normalize = .ok np) (i : Nat) {c : Clause} (hc : p.clauses[i]? = some c) :
    ∃ nc, np.clauses[i]? = some nc ∧ ∀ r, nc.constraint.Applies r ↔ c.Nests r := by
  obtain ⟨hvalid, -, -, hclauses⟩ := normalize_spec h
  obtain ⟨nc, hnc, hone⟩ := hclauses i c hc
  have harities := hasArities_of_validate hvalid (List.mem_of_getElem? hc)
  exact ⟨nc, hnc, fun r => Clause.applies_constraint_iff harities hone⟩

end HornSaturation
