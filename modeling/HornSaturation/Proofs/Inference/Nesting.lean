import HornSaturation.Inference.Classification
import HornSaturation.Inference.Resolution
import HornSaturation.Proofs.Data.Ensures
import HornSaturation.Proofs.Data.Results
import HornSaturation.Proofs.Inference.Projection
import HornSaturation.Proofs.Oracle.Questions

/-!
# Inference brings in no relations

Constraints are simplified, moved to other occurrences, joined and compared, and none of this
applies a relation in a formula that has not been applied in one of the constraints before. So the
constraints that are derived, and the formulas that the oracle is asked about when they are
classified, apply only relations that the given constraints apply.
-/

namespace HornSaturation

variable {S : RelationId → Prop}

namespace Term

variable {t : Term} {v : Var} {cs rest : List Term}

theorem AppliesOnly.foldConstants (h : t.AppliesOnly S) : t.foldConstants.AppliesOnly S :=
  fun r hr => h r (mentions_foldConstants hr)

/-- The definition of a symbol is a part of the conjunct that it is read off. -/
theorem AppliesOnly.definition? {c : Term} (hc : c.AppliesOnly S) (h : definition? v c = some t) :
    t.AppliesOnly S := by
  have hequality {o : Op} {a b : Term} (hc : (Term.op o [a, b]).AppliesOnly S)
      (h : (if a = .var v ∧ !b.containsVar v then some b
        else if b = .var v ∧ !a.containsVar v then some a else none) = some t) :
      t.AppliesOnly S := by
    have hargs := (appliesOnly_op o [a, b]).mp hc
    split at h
    · exact Option.some.inj h ▸ hargs b (by simp)
    · split at h
      · exact Option.some.inj h ▸ hargs a (by simp)
      · cases h
  unfold Term.definition? at h
  split at h
  · split at h
    · exact Option.some.inj h ▸ appliesOnly_bool true
    · cases h
  · split at h
    · exact Option.some.inj h ▸ appliesOnly_bool false
    · cases h
  · exact hequality hc h
  · exact hequality hc h
  · cases h

theorem appliesOnly_eliminateEach {vs left : List Var} {cs' : List Term}
    (hcs : ∀ c ∈ cs, c.AppliesOnly S) (h : eliminateEach cs vs = some (cs', left)) :
    ∀ c ∈ cs', c.AppliesOnly S := by
  induction vs generalizing cs left with
  | nil =>
    obtain ⟨rfl, -⟩ := Prod.mk.inj (Option.some.inj h)
    exact hcs
  | cons v vs ih =>
    unfold eliminateEach at h
    split at h
    · next t rest htake =>
      dsimp only at h
      split at h
      · cases h
      · obtain ⟨c, hc, hmem⟩ := takeDefinition?_spec htake
        have ht := (hcs c ((hmem c).mpr (.inl rfl))).definition? hc
        refine ih (List.forall_mem_map.mpr fun d hd => ?_) h
        have hd := hcs d ((hmem d).mpr (.inr hd))
        exact (hd.substitute (List.forall_mem_singleton.mpr ht)).foldConstants
    · obtain ⟨⟨cs₁, left₁⟩, heach, heq⟩ := Option.map_eq_some_iff.mp h
      obtain ⟨rfl, -⟩ := Prod.mk.inj heq
      exact ih hcs heach

theorem appliesOnly_eliminateWithin {n : Nat} {vs : List Var} {cs' : List Term}
    (hcs : ∀ c ∈ cs, c.AppliesOnly S) (h : eliminateWithin n cs vs = some cs') :
    ∀ c ∈ cs', c.AppliesOnly S := by
  induction n generalizing cs vs with
  | zero => exact Option.some.inj h ▸ hcs
  | succ n ih =>
    unfold eliminateWithin at h
    split at h
    · cases h
    · next heach =>
      have hround := appliesOnly_eliminateEach hcs heach
      split at h
      · exact ih hround h
      · exact Option.some.inj h ▸ hround

theorem appliesOnly_foldConjuncts (hcs : ∀ c ∈ cs, c.AppliesOnly S) :
    (foldConjuncts cs).AppliesOnly S := by
  unfold foldConjuncts
  dsimp only
  split
  · exact appliesOnly_bool false
  · refine (appliesOnly_conjoin.mpr fun c hc => ?_).foldConstants
    rw [conjunctsList_eq] at hc
    obtain ⟨d, hd, hc⟩ := List.mem_flatMap.mp hc
    obtain ⟨d, hd', rfl⟩ := List.mem_map.mp hd
    exact (hcs d hd').foldConstants.of_mem_conjuncts hc

end Term

/-- A simplifier brings in no relations. -/
def Simplifier.Conservative (simplifier : Simplifier) : Prop :=
  ∀ (S : RelationId → Prop) (symbols : Symbols) (t : Term) (vs : List Var) (foldFirst : Bool),
    t.AppliesOnly S → (simplifier symbols t vs foldFirst).AppliesOnly S

/-- Projection brings in no relations. -/
theorem Term.project_conservative : Simplifier.Conservative project := by
  intro S symbols t vs foldFirst ht
  have hfirst : (if foldFirst then t.foldConstants else t).AppliesOnly S := by
    split
    · exact ht.foldConstants
    · exact ht
  unfold project
  dsimp only
  split
  · exact appliesOnly_bool false
  · next hwithin =>
    exact appliesOnly_foldConjuncts
      (appliesOnly_eliminateWithin (fun c hc => hfirst.of_mem_conjuncts hc) hwithin)

theorem Term.keep_conservative : Simplifier.Conservative keep := fun _ _ _ _ _ ht => ht

namespace UnitClause

variable {relations : List Relation} {u u' : UnitClause}

theorem appliesOnly_moveArguments {occurrence : Nat} {s : Substitution}
    (h : u.moveArguments relations occurrence = .ok s) : ∀ p ∈ s, p.2.AppliesOnly S := by
  unfold moveArguments at h
  split at h
  · obtain rfl := Except.ok.inj h
    simp
  · split at h
    · obtain rfl := Except.ok.inj h
      simp
    · obtain ⟨source, -, h⟩ := Except.bind_eq_ok.mp h
      obtain ⟨target, -, h⟩ := Except.bind_eq_ok.mp h
      obtain rfl := Except.ok.inj h
      exact Substitution.appliesOnly_ofVars

theorem appliesOnly_atOccurrence {occurrence : Nat} (hu : u.constraint.AppliesOnly S)
    (h : u.atOccurrence relations occurrence = .ok u') : u'.constraint.AppliesOnly S := by
  obtain ⟨move, hmove, h⟩ := Except.bind_eq_ok.mp h
  obtain rfl := Except.ok.inj h
  exact hu.substitute (appliesOnly_moveArguments hmove)

theorem appliesOnly_canonical (hu : u.constraint.AppliesOnly S)
    (h : u.canonical relations = .ok u') : u'.constraint.AppliesOnly S := by
  obtain ⟨u₀, hu₀, h⟩ := Except.bind_eq_ok.mp h
  obtain ⟨locals, -, h⟩ := Except.bind_eq_ok.mp h
  obtain rfl := Except.ok.inj h
  exact (appliesOnly_atOccurrence hu hu₀).substitute Substitution.appliesOnly_ofVars

theorem maintains_instantiate (hu : u.constraint.AppliesOnly S) (occurrence : Nat) :
    Maintains (fun _ => True) (Term.AppliesOnly S) (u.instantiate relations occurrence) := by
  refine .liftBind fun move hmove => ?_
  refine .liftBind fun locals _ => ?_
  refine (Maintains.any (freshLocals locals)).bind fun renamed _ => .pure (hu.substitute ?_)
  exact List.forall_mem_append.mpr
    ⟨appliesOnly_moveArguments hmove, Substitution.appliesOnly_ofVars⟩

end UnitClause

section Resolution

variable {relations : List Relation} {nucleus : NormalizedClause} {u : UnitClause}
  {simplifier : Simplifier}

theorem maintains_electronInstance (hu : u.constraint.AppliesOnly S) (position : Nat) :
    Maintains (fun _ => True) (fun r => r.2.AppliesOnly S)
      (electronInstance relations nucleus position u) := by
  unfold electronInstance
  split
  · split
    · exact Maintains.throw _
    · refine .liftBind fun head _ => ?_
      refine (UnitClause.maintains_instantiate hu _).bind fun inPlace hinPlace => ?_
      split
      · exact (UnitClause.maintains_instantiate hu _).bind fun t ht => .pure ht
      · exact .pure hinPlace
  · exact .throw _

theorem maintains_electronInstances {us : List UnitClause}
    (hus : ∀ u ∈ us, u.constraint.AppliesOnly S) (position : Nat) :
    Maintains (fun _ => True) (fun ts => ∀ t ∈ ts, t.AppliesOnly S)
      (electronInstances relations nucleus position us) := by
  induction us generalizing position with
  | nil => exact .pure (by simp)
  | cons u us ih =>
    obtain ⟨hu, hus⟩ := List.forall_mem_cons.mp hus
    refine (maintains_electronInstance hu position).bind fun r hr => ?_
    exact (ih hus (position + 1)).bind fun ts hts => .pure (List.forall_mem_cons.mpr ⟨hr, hts⟩)

theorem maintains_reduceUnit (hs : simplifier.Conservative) (hu : u.constraint.AppliesOnly S) :
    Maintains (fun _ => True) (fun u' => u'.constraint.AppliesOnly S)
      (reduceUnit simplifier relations u) := by
  refine .liftBind fun args _ => ?_
  refine .liftBind fun locals _ => ?_
  refine Maintains.get.bind fun symbols _ => ?_
  refine (Maintains.any (freshLocals _)).bind fun renamed _ => .pure ?_
  exact (hs S symbols u.constraint locals true hu).substitute Substitution.appliesOnly_ofVars

/-- A resolvent applies no relations but those that the clause and the units apply. -/
theorem maintains_resolve {electrons : List UnitClause} (hs : simplifier.Conservative)
    (hnucleus : nucleus.constraint.AppliesOnly S)
    (helectrons : ∀ u ∈ electrons, u.constraint.AppliesOnly S) :
    Maintains (fun _ => True) (fun u => u.constraint.AppliesOnly S)
      (resolve simplifier relations nucleus electrons) := by
  unfold resolve
  refine Maintains.get.bind fun symbols _ => ?_
  dsimp only
  split
  · exact .throwBind _ _
  split
  · exact .throwBind _ _
  refine (maintains_electronInstances helectrons 0).bind fun ts hts => ?_
  refine .liftBind fun head _ => ?_
  exact maintains_reduceUnit hs
    (Term.appliesOnly_conjoin.mpr (List.forall_mem_cons.mpr ⟨hnucleus, hts⟩))

end Resolution

/-- All constraints of stored units apply relations of some kind only. -/
def Store.AppliesOnly (S : RelationId → Prop) (store : Store) : Prop :=
  ∀ id e, store.get? id = some e → e.unit.constraint.AppliesOnly S

section Classification

open Oracle

variable {relations : List Relation} {store : Store} {u : UnitClause} {o : Oracle}

theorem Store.AppliesOnly.of_mem_unitsOf (h : store.AppliesOnly S) {r : RelationId}
    {w : UnitId × UnitClause} (hw : w ∈ store.unitsOf r) : w.2.constraint.AppliesOnly S := by
  obtain ⟨id, -, hid⟩ := List.mem_filterMap.mp hw
  obtain ⟨e, he, rfl⟩ := Option.map_eq_some_iff.mp hid
  exact h id e he

theorem Subsumption.appliesOnly_aligned? {t : Term} {hasLocals : Bool}
    (hu : u.constraint.AppliesOnly S) (h : aligned? relations u = some (t, hasLocals)) :
    t.AppliesOnly S := by
  unfold aligned? at h
  split at h
  · cases h
  · next hcanonical =>
    split at h
    · cases h
    · obtain ⟨rfl, -⟩ := Prod.mk.inj (Option.some.inj h)
      exact UnitClause.appliesOnly_canonical hu hcanonical

/-- The question whether a formula implies another is about relations that they apply. -/
private theorem asksOnly_implies_of_appliesOnly {a b : Term} (ha : a.AppliesOnly S)
    (hb : b.AppliesOnly S) (o : Oracle) : o.AsksOnly (Term.AppliesOnly S) (o.implies a b).2 :=
  asksOnly_implies (Term.appliesOnly_negate.mpr (Term.appliesOnly_implication.mpr ⟨ha, hb⟩)) o

theorem Subsumption.asksOnly_coveredByAny {t : Term} {us : List (UnitId × UnitClause)}
    (ht : t.AppliesOnly S) (hus : ∀ w ∈ us, w.2.constraint.AppliesOnly S) (o : Oracle) :
    o.AsksOnly (Term.AppliesOnly S) (coveredByAny relations t us o).2 := by
  induction us generalizing o with
  | nil => exact .refl o
  | cons w us ih =>
    obtain ⟨hw, hus⟩ := List.forall_mem_cons.mp hus
    unfold coveredByAny
    split
    · exact ih hus o
    · next haligned =>
      have hasks := asksOnly_implies_of_appliesOnly ht (appliesOnly_aligned? hw haligned) o
      split
      · exact .refl o
      split
      · exact ih hus o
      split
      · next himplies =>
        rw [himplies] at hasks
        exact hasks
      · next himplies =>
        rw [himplies] at hasks
        exact hasks.trans (ih hus _)

theorem Subsumption.asksOnly_coveredBy {t : Term} {hasLocals : Bool}
    {us : List (UnitId × UnitClause)} (ht : t.AppliesOnly S)
    (hus : ∀ w ∈ us, w.2.constraint.AppliesOnly S) (o : Oracle) :
    o.AsksOnly (Term.AppliesOnly S) (coveredBy relations t hasLocals us o).2 := by
  induction us generalizing o with
  | nil => exact .refl o
  | cons w us ih =>
    obtain ⟨hw, hus⟩ := List.forall_mem_cons.mp hus
    unfold coveredBy
    refine .trans ?_ (ih hus _)
    split
    · exact .refl o
    · next haligned =>
      split
      · exact .refl o
      split
      · exact .refl o
      · exact asksOnly_implies_of_appliesOnly (appliesOnly_aligned? hw haligned) ht o

/-- Looking for redundant units asks only about relations that constraints of units apply. -/
structure Subsumption.Conservative (s : Subsumption) : Prop where
  forward (S : RelationId → Prop) (store : Store) (u : UnitClause) (o : Oracle) :
    store.AppliesOnly S → u.constraint.AppliesOnly S →
      o.AsksOnly (Term.AppliesOnly S) (s.forward store u o).2
  backward (S : RelationId → Prop) (store : Store) (u : UnitClause) (o : Oracle) :
    store.AppliesOnly S → u.constraint.AppliesOnly S →
      o.AsksOnly (Term.AppliesOnly S) (s.backward store u o).2

theorem Subsumption.byImplication_conservative : Subsumption.Conservative .byImplication := by
  refine ⟨fun S store u o hstore hu => ?_, fun S store u o hstore hu => ?_⟩
  · dsimp only [byImplication]
    split
    · next haligned =>
      have ht := appliesOnly_aligned? hu haligned
      exact asksOnly_coveredByAny ht (fun w hw => hstore.of_mem_unitsOf hw) o
    · exact .refl o
  · dsimp only [byImplication]
    split
    · next haligned =>
      have ht := appliesOnly_aligned? hu haligned
      exact asksOnly_coveredBy ht (fun w hw => hstore.of_mem_unitsOf hw) o
    · exact .refl o

theorem Subsumption.never_conservative : Subsumption.Conservative .never :=
  ⟨fun _ _ _ o _ _ => .refl o, fun _ _ _ o _ _ => .refl o⟩

theorem asksOnly_hasContradiction (hu : u.constraint.AppliesOnly S) (o : Oracle) :
    o.AsksOnly (Term.AppliesOnly S) (hasContradiction u o).2 := by
  have hasks := asksOnly_checkWith (List.forall_mem_singleton.mpr hu) o
  unfold hasContradiction
  split
  · split <;>
    · next heq =>
      rw [heq] at hasks
      exact hasks
  · exact .refl o

theorem asksOnly_isInfeasible {t : Term} (ht : t.AppliesOnly S) (o : Oracle) :
    o.AsksOnly (Term.AppliesOnly S) (isInfeasible t o).2 := by
  have hasks := asksOnly_checkWith (List.forall_mem_singleton.mpr ht) o
  unfold isInfeasible
  split
  · exact .refl o
  · split <;>
    · next heq =>
      rw [heq] at hasks
      exact hasks

/-- Classifying a unit asks only about relations that its constraint or a stored one applies. -/
theorem asksOnly_classify {s : Subsumption} (hs : s.Conservative) (hstore : store.AppliesOnly S)
    (hu : u.constraint.AppliesOnly S) (o : Oracle) :
    o.AsksOnly (Term.AppliesOnly S) (classify s store u o).2 := by
  have hcontradiction := asksOnly_hasContradiction hu o
  have hinfeasible := asksOnly_isInfeasible hu o
  unfold classify
  split
  · split <;>
    · next heq =>
      rw [heq] at hcontradiction
      exact hcontradiction
  split
  · next heq =>
    rw [heq] at hinfeasible
    exact hinfeasible
  · next o₁ heq =>
    rw [heq] at hinfeasible
    have hforward := hs.forward S store u o₁ hstore hu
    split
    · exact hinfeasible
    split
    · next heq =>
      rw [heq] at hforward
      exact hinfeasible.trans hforward
    · next o₂ heq =>
      rw [heq] at hforward
      exact (hinfeasible.trans hforward).trans (hs.backward S store u o₂ hstore hu)

end Classification

end HornSaturation
