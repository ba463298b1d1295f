import HornSaturation.Proofs.Inference.Electrons

/-!
# Inferences do not fail

A clause whose relations are declared can be resolved with any units of the relations of its body,
whatever their constraints are and however formulas are simplified. Nothing that is done to symbols
meanwhile makes the relations unknown again.
-/

namespace HornSaturation

/-- A step that never fails and that leaves it as it was whether the relations are known. -/
def Allocating.Total {α : Type} (step : Allocating α) : Prop :=
  ∀ s, Ensures step s (fun _ s' => s'.ready = s.ready) fun _ _ => False

namespace Allocating.Total

variable {α β : Type}

theorem pure (a : α) : Total (Pure.pure a) := fun _ => rfl

theorem bind {step : Allocating α} {f : α → Allocating β} (h : Total step)
    (hf : ∀ a, Total (f a)) : Total (step >>= f) := fun s =>
  ensures_bind.mpr <| (h s).mono (fun a s' hs => hs ▸ hf a s') fun _ _ => False.elim

theorem lift_bind {x : Except Error α} {f : α → Allocating β} (hx : ∃ a, x = .ok a)
    (hf : ∀ a, Total (f a)) : Total (liftM x >>= f) := by
  obtain ⟨a, rfl⟩ := hx
  exact hf a

end Allocating.Total

open Allocating

theorem total_freshLocals (vs : List Var) : (freshLocals vs).Total := by
  induction vs with
  | nil => exact .pure []
  | cons v vs ih =>
    have hfresh : Total (modifyGet fun s : Symbols => s.fresh "l" v.sort) := fun _ => rfl
    exact hfresh.bind fun w => ih.bind fun ws => .pure (w :: ws)

variable {relations : List Relation} {c : NormalizedClause}

/-- A unit whose relation is declared has an instance at every occurrence. -/
theorem UnitClause.total_instantiate {u : UnitClause} {vars : List Var}
    (h : u.arguments relations = .ok vars) (occurrence : Nat) :
    (u.instantiate relations occurrence).Total :=
  .lift_bind (exists_moveArguments h occurrence) fun _ => .lift_bind (locals_eq_ok h) fun locals =>
    (total_freshLocals locals).bind fun _ => .pure _

/-- A unit for the head of a clause has argument symbols. -/
theorem UnitClause.exists_arguments_of_head {u : UnitClause} (hc : c.Known relations)
    (hu : u.head = c.headRelation?) : ∃ vars, u.arguments relations = .ok vars := by
  cases hhead : c.head with
  | none =>
    rw [NormalizedClause.headRelation?, hhead] at hu
    exact ⟨[], by rw [arguments, hu]; rfl⟩
  | some a =>
    rw [NormalizedClause.headRelation?, hhead] at hu
    obtain ⟨vars, hvars⟩ := hc a (NormalizedClause.Regular.mem_uses_of_head hhead)
    exact exists_arguments hu hvars

/-- A unit can be read at a use of its relation. -/
theorem total_electronInstance (hc : c.Known relations) {position : Nat} {a : Atom}
    (ha : c.body[position]? = some a) {u : UnitClause} (hu : a.Takes u) :
    (electronInstance relations c position u).Total := by
  have hbody : a ∈ c.uses := NormalizedClause.Regular.mem_uses_of_body (List.mem_of_getElem? ha)
  obtain ⟨vars, hvars⟩ := hc a hbody
  obtain ⟨own, hown⟩ := UnitClause.exists_arguments hu hvars
  have hread : Total (do
      let headArguments ← c.headArguments relations
      let inPlace ← u.instantiate relations a.occurrence
      if inPlace.vars.any headArguments.contains then
        return (a.occurrence + 1, ← u.instantiate relations (a.occurrence + 1))
      return (a.occurrence, inPlace)) := by
    refine .lift_bind hc.headArguments_eq_ok fun headVars => ?_
    refine (UnitClause.total_instantiate hown a.occurrence).bind fun inPlace => ?_
    split
    · exact (UnitClause.total_instantiate hown (a.occurrence + 1)).bind fun _ => .pure _
    · exact .pure _
  unfold electronInstance
  simpa only [ha, show u.head = some a.relation from hu, ne_eq, not_true_eq_false, if_false]
    using hread

/-- Units can be read at consecutive uses of their relations. -/
theorem total_electronInstances (hc : c.Known relations) {us : List UnitClause} (position : Nat)
    (hus : List.Forall₂ Atom.Takes (c.body.drop position) us) :
    (electronInstances relations c position us).Total := by
  induction us generalizing position with
  | nil => exact .pure []
  | cons u us ih =>
    obtain ⟨a, body, hu, hrest, hdrop⟩ := List.forall₂_cons_right_iff.mp hus
    have ha : c.body[position]? = some a := by rw [← List.head?_drop, hdrop, List.head?_cons]
    have htail : c.body.drop (position + 1) = body := by
      rw [← List.tail_drop, hdrop, List.tail_cons]
    exact (total_electronInstance hc ha hu).bind fun _ =>
      (ih (position + 1) (htail ▸ hrest)).bind fun _ => .pure _

/-- Reducing a unit does not fail, and leaves its head alone. -/
theorem ensures_reduceUnit_total {u : UnitClause} (simplifier : Simplifier)
    (hu : ∃ vars, u.arguments relations = .ok vars) (s : Symbols) :
    Ensures (reduceUnit simplifier relations u) s
      (fun u' s' => u'.head = u.head ∧ s'.ready = s.ready) fun _ _ => False := by
  obtain ⟨vars, hvars⟩ := hu
  obtain ⟨locals, hlocals⟩ := UnitClause.locals_eq_ok hvars
  simp only [reduceUnit, hvars, hlocals, ensures_bind, ensures_ok, ensures_get, ensures_pure]
  exact (total_freshLocals _ s).mono (fun _ _ hready => ⟨trivial, hready⟩) fun _ _ => id

/-- A clause can be resolved with units of the relations of its body, once relations are known. -/
theorem ensures_resolve_total (simplifier : Simplifier) (hc : c.Known relations)
    {us : List UnitClause} (hus : List.Forall₂ Atom.Takes c.body us) {s : Symbols}
    (hs : s.ready = true) :
    Ensures (resolve simplifier relations c us) s
      (fun u s' => u.head = c.headRelation? ∧ s'.ready = true) fun _ _ => False := by
  obtain ⟨headVars, hheadVars⟩ := hc.headArguments_eq_ok
  have hlength : us.length = c.body.length := hus.length_eq.symm
  simp only [resolve, ensures_bind, ensures_get, hs, hlength, hheadVars, ensures_ok, Bool.not_true,
    Bool.false_eq_true, if_false, ne_eq, not_true_eq_false]
  refine (total_electronInstances hc 0 hus s).mono (fun ts s₁ hs₁ => ?_) fun _ _ => id
  refine (ensures_reduceUnit_total simplifier ?_ s₁).mono ?_ fun _ _ => id
  · exact UnitClause.exists_arguments_of_head hc rfl
  · rintro u s₂ ⟨hhead, hs₂⟩
    exact ⟨hhead, (hs₂.trans hs₁).trans hs⟩

end HornSaturation
