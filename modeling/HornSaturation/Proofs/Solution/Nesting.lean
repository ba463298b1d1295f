import HornSaturation.Proofs.Clause.Nesting
import HornSaturation.Proofs.Inference.Nesting
import HornSaturation.Proofs.Solution.Interpretations
import HornSaturation.Solution.Check

/-!
# Solutions bring in no relations

The formulas of a solution are made of stored constraints, and the check of a solution asks about
these formulas and the constraints of the clauses.
-/

namespace HornSaturation

variable {S : RelationId → Prop}

namespace Solution

variable {p : NormalizedProblem} {store : Store} {s : Solution} {simplifier : Simplifier}
  {symbols : Symbols} {relations : List Relation}

/-- All interpretations apply relations of some kind only. -/
def AppliesOnly (S : RelationId → Prop) (s : Solution) : Prop :=
  ∀ r i, s.get? r = some i → i.formula.AppliesOnly S

theorem appliesOnly_disjunction (hstore : store.AppliesOnly S) {r : Relation} {t : Term}
    (h : disjunction store relations r = .ok t) : t.AppliesOnly S := by
  obtain ⟨units, hunits, h⟩ := Except.bind_eq_ok.mp h
  obtain rfl := Except.ok.inj h
  refine Term.appliesOnly_disjoin (List.forall_mem_map.mpr fun u hu => ?_)
  obtain ⟨w, hw, hu⟩ := (Except.mapM_eq_ok.mp hunits).flip.exists_right hu
  exact UnitClause.appliesOnly_atOccurrence (hstore.of_mem_unitsOf hw) hu

theorem appliesOnly_interpret (hs : simplifier.Conservative) (hstore : store.AppliesOnly S)
    {r : Relation} {i : Interpretation}
    (h : interpret simplifier symbols store relations r = .ok i) : i.formula.AppliesOnly S := by
  obtain ⟨t, ht, h⟩ := Except.bind_eq_ok.mp h
  obtain rfl := Except.ok.inj h
  refine (hs S symbols t [] true (appliesOnly_disjunction hstore ht)).substitute ?_
  exact List.forall_mem_append.mpr
    ⟨Substitution.appliesOnly_ofVars, Substitution.appliesOnly_ofVars⟩

/-- The solution of a store applies no relations but those that stored constraints apply. -/
theorem appliesOnly_ofStore (hs : simplifier.Conservative) (hstore : store.AppliesOnly S)
    (h : ofStore simplifier symbols store relations = .ok s) : s.AppliesOnly S := by
  have hfold : ∀ (rs : List Relation) (s₀ : Solution), s₀.AppliesOnly S →
      rs.foldlM (fun s r => do
        let i ← interpret simplifier symbols store relations r
        return s.insert r.id i) s₀ = .ok s → s.AppliesOnly S := by
    intro rs
    induction rs with
    | nil => exact fun s₀ hs₀ h => Except.ok.inj h ▸ hs₀
    | cons r rs ih =>
      intro s₀ hs₀ h
      rw [List.foldlM_cons] at h
      obtain ⟨s₁, hs₁, h⟩ := Except.bind_eq_ok.mp h
      obtain ⟨i, hi, hs₁⟩ := Except.bind_eq_ok.mp hs₁
      obtain rfl := Except.ok.inj hs₁
      refine ih _ (fun q j hj => ?_) h
      rw [get?_insert] at hj
      split at hj
      · exact Option.some.inj hj ▸ appliesOnly_interpret hs hstore hi
      · exact hs₀ q j hj
  refine hfold relations {} (fun q j hj => ?_) h
  simp [get?] at hj

theorem AppliesOnly.apply (h : s.AppliesOnly S) {r : RelationId} {i : Interpretation}
    (hi : s.get r = .ok i) {args : List Term} (hargs : ∀ t ∈ args, t.AppliesOnly S)
    (tag : String) : (i.apply args tag).AppliesOnly S := by
  have hget : s.get? r = some i := by
    unfold get at hi
    split at hi
    · next hget => rwa [← Except.ok.inj hi]
    · cases hi
  refine (h r i hget).substitute ?_
  refine List.forall_mem_append.mpr ⟨fun b hb => ?_, Substitution.appliesOnly_ofVars⟩
  exact hargs b.2 (List.of_mem_zip hb).2

theorem asksOnly_checkAll {β : Type} {formula? : β → Except Error (Option Term)} {bs : List β}
    (h : ∀ b ∈ bs, ∀ t, formula? b = .ok (some t) → t.AppliesOnly S) (o : Oracle) :
    o.AsksOnly (Term.AppliesOnly S) (checkAll formula? bs o).2 := by
  induction bs generalizing o with
  | nil => exact .refl o
  | cons b bs ih =>
    obtain ⟨hb, hbs⟩ := List.forall_mem_cons.mp h
    unfold checkAll
    split
    · exact .refl o
    · exact ih hbs o
    · next t ht =>
      have hasks := Oracle.asksOnly_checkValid (Term.appliesOnly_negate.mpr (hb t ht)) o
      split
      · next heq =>
        rw [heq] at hasks
        exact hasks.trans (ih hbs _)
      · next heq =>
        rw [heq] at hasks
        exact hasks

theorem AppliesOnly.bodyUseFormulas (h : s.AppliesOnly S) {body : List Atom} {position : Nat}
    {ts : List Term} (hts : s.bodyUseFormulas relations position body = .ok ts) :
    ∀ t ∈ ts, t.AppliesOnly S := by
  induction body generalizing position ts with
  | nil =>
    obtain rfl := Except.ok.inj hts
    simp
  | cons a body ih =>
    obtain ⟨args, -, hts⟩ := Except.bind_eq_ok.mp hts
    obtain ⟨i, hi, hts⟩ := Except.bind_eq_ok.mp hts
    obtain ⟨rest, hrest, hts⟩ := Except.bind_eq_ok.mp hts
    obtain rfl := Except.ok.inj hts
    refine List.forall_mem_cons.mpr ⟨h.apply hi (List.forall_mem_map.mpr fun v _ => ?_) _, ih hrest⟩
    exact Term.appliesOnly_var v

theorem AppliesOnly.headFormula? (h : s.AppliesOnly S) {head : Option Atom} {t : Term}
    (ht : s.headFormula? relations head = .ok (some t)) : t.AppliesOnly S := by
  cases head with
  | none =>
    obtain rfl := Option.some.inj (Except.ok.inj ht)
    exact Term.appliesOnly_bool false
  | some a =>
    obtain ⟨i, hi, ht⟩ := Except.bind_eq_ok.mp ht
    split at ht
    · obtain ⟨args, -, ht⟩ := Except.bind_eq_ok.mp ht
      obtain rfl := Option.some.inj (Except.ok.inj ht)
      exact h.apply hi (List.forall_mem_map.mpr fun v _ => Term.appliesOnly_var v) _
    · cases ht

/-- Checking a solution against a problem in normalized form. -/
theorem AppliesOnly.asksOnly_checkNormalized (h : s.AppliesOnly S) (hp : p.AppliesOnly S)
    (o : Oracle) : o.AsksOnly (Term.AppliesOnly S) (s.checkNormalized p o).2 := by
  refine asksOnly_checkAll (fun c hc t ht => ?_) o
  obtain ⟨head?, hhead, ht⟩ := Except.bind_eq_ok.mp ht
  cases head? with
  | none => cases ht
  | some head =>
    obtain ⟨body, hbody, ht⟩ := Except.bind_eq_ok.mp ht
    obtain rfl := Option.some.inj (Except.ok.inj ht)
    refine Term.appliesOnly_implication.mpr ⟨Term.appliesOnly_conjoin.mpr ?_, h.headFormula? hhead⟩
    exact List.forall_mem_cons.mpr ⟨hp c hc, h.bodyUseFormulas hbody⟩

theorem AppliesOnly.bodyFormulas (h : s.AppliesOnly S) {index position : Nat}
    {body : List Application} (hbody : ∀ a ∈ body, ∀ t ∈ a.args, t.AppliesOnly S)
    {ts : List Term} (hts : s.bodyFormulas index position body = .ok ts) :
    ∀ t ∈ ts, t.AppliesOnly S := by
  induction body generalizing position ts with
  | nil =>
    obtain rfl := Except.ok.inj hts
    simp
  | cons a body ih =>
    obtain ⟨ha, hbody⟩ := List.forall_mem_cons.mp hbody
    obtain ⟨i, hi, hts⟩ := Except.bind_eq_ok.mp hts
    obtain ⟨rest, hrest, hts⟩ := Except.bind_eq_ok.mp hts
    obtain rfl := Except.ok.inj hts
    exact List.forall_mem_cons.mpr ⟨h.apply hi ha _, ih hbody hrest⟩

theorem AppliesOnly.clauseFormula? (h : s.AppliesOnly S) {index : Nat} {c : Clause} {t : Term}
    (hcondition : c.condition.AppliesOnly S)
    (hargs : ∀ a ∈ c.applications, ∀ t ∈ a.args, t.AppliesOnly S)
    (ht : s.clauseFormula? index c = .ok (some t)) : t.AppliesOnly S := by
  obtain ⟨hbodyArgs, hheadArgs⟩ := List.forall_mem_append.mp hargs
  obtain ⟨body, hbody, ht⟩ := Except.bind_eq_ok.mp ht
  have hpremise : (Term.conjoin (c.condition :: body)).AppliesOnly S :=
    Term.appliesOnly_conjoin.mpr
      (List.forall_mem_cons.mpr ⟨hcondition, h.bodyFormulas hbodyArgs hbody⟩)
  cases hhead : c.head with
  | none =>
    rw [hhead] at ht
    obtain rfl := Option.some.inj (Except.ok.inj ht)
    exact Term.appliesOnly_implication.mpr ⟨hpremise, Term.appliesOnly_bool false⟩
  | some a =>
    rw [hhead] at ht hheadArgs
    obtain ⟨i, hi, ht⟩ := Except.bind_eq_ok.mp ht
    split at ht
    · obtain rfl := Option.some.inj (Except.ok.inj ht)
      have happlied := h.apply hi (hheadArgs a (by simp)) "h"
      exact Term.appliesOnly_implication.mpr ⟨hpremise, happlied⟩
    · cases ht

/-- Checking a solution against a problem as it was stated. -/
theorem AppliesOnly.asksOnly_check (h : s.AppliesOnly S) {p : Problem}
    (hconditions : ∀ c ∈ p.clauses, c.condition.AppliesOnly S)
    (hargs : ∀ c ∈ p.clauses, ∀ a ∈ c.applications, ∀ t ∈ a.args, t.AppliesOnly S) (o : Oracle) :
    o.AsksOnly (Term.AppliesOnly S) (s.check p o).2 := by
  refine asksOnly_checkAll (fun b hb t ht => ?_) o
  have hmem : b.1 ∈ p.clauses := List.mem_of_getElem? (List.mem_zipIdx_iff_getElem?.mp hb)
  exact h.clauseFormula? (hconditions b.1 hmem) (hargs b.1 hmem) ht

end Solution

end HornSaturation
