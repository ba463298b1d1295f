import HornSaturation.Proofs.Oracle.Models
import HornSaturation.Proofs.Refutation.Build
import HornSaturation.Proofs.Refutation.Existence
import HornSaturation.Proofs.Inference.Totality
import HornSaturation.Proofs.Unit.Coherence

/-!
# How reconstruction fails

In a coherent store everything that the reconstruction of a refutation looks up is there, and every
argument has a value under every model. So there is one way left for it to fail: the oracle does not
answer that the formulas of a step have a model.
-/

namespace HornSaturation

variable {α β : Type} {p : NormalizedProblem}

/-- An error that names a clause for which the oracle has not found a model. -/
def Error.IsIrreproducible (p : NormalizedProblem) (e : Error) : Prop :=
  ∃ c ∈ p.clauses, ∃ answer, answer ≠ .sat ∧ e = .internal (.notReproducible c.index answer)

/-- A step of work that only fails where the oracle finds no model for a clause. -/
def Working.OnlyStalls (p : NormalizedProblem) (step : Working α) : Prop :=
  ∀ w, Ensures step w (fun _ _ => True) fun e _ => e.IsIrreproducible p

namespace Working.OnlyStalls

theorem pure (a : α) : OnlyStalls p (Pure.pure a) := fun _ => trivial

theorem bind {step : Working α} {f : α → Working β} (h : OnlyStalls p step)
    (hf : ∀ a, OnlyStalls p (f a)) : OnlyStalls p (step >>= f) := fun w =>
  ensures_bind.mpr <| (h w).mono (fun a w' _ => hf a w') fun _ _ => id

theorem lift_bind {x : Except Error α} {f : α → Working β} {a : α} (hx : x = .ok a)
    (hf : OnlyStalls p (f a)) : OnlyStalls p (liftM x >>= f) := by
  subst hx
  exact hf

theorem allocate {step : Allocating α} (h : step.Total) : OnlyStalls p (Working.allocate step) :=
  fun w => ensures_allocate.mpr <| (h w.symbols).mono (fun _ _ _ => trivial) fun _ _ => False.elim

theorem ask (question : Oracle → α × Oracle) : OnlyStalls p (Working.ask question) :=
  fun _ => trivial

theorem foldlM {f : β → α → Working β} {as : List α} (hf : ∀ a ∈ as, ∀ b, OnlyStalls p (f b a))
    (b : β) : OnlyStalls p (as.foldlM f b) := by
  induction as generalizing b with
  | nil => exact .pure b
  | cons a as ih =>
    obtain ⟨hfirst, hrest⟩ := List.forall_mem_cons.mp hf
    exact .bind (hfirst b) fun b' => ih hrest b'

end Working.OnlyStalls

namespace Refutation

open Working

variable {store : Store} {clause : NormalizedClause} {electrons : List UnitId}

/-- Every variable has a value under the last model. -/
theorem readValues_onlyStalls (vs : List Var) : (readValues vs).OnlyStalls p := by
  induction vs with
  | nil => exact .pure []
  | cons v vs ih =>
    intro w
    obtain ⟨x, hx⟩ := w.oracle.exists_eval_var v
    simp only [readValues, ensures_bind, ensures_get, hx, ensures_pure]
    exact ih w

/-- Children are placed for stored units at the uses of a body. -/
theorem placeChildren_onlyStalls {position : Nat} {ids : List UnitId} (drafts : List Draft)
    (hbody : ∀ i, i < ids.length →
      ∃ vars, clause.bodyArguments p.relations (position + i) = .ok vars)
    (hids : ∀ id ∈ ids, ∃ e, store.get? id = some e) :
    (placeChildren store p.relations clause position ids drafts).OnlyStalls p := by
  induction ids generalizing position drafts with
  | nil => exact .pure _
  | cons id ids ih =>
    obtain ⟨⟨e, he⟩, hids⟩ := List.forall_mem_cons.mp hids
    obtain ⟨vars, hvars⟩ := hbody 0 (Nat.succ_pos _)
    have hrest (drafts : List Draft) :
        (placeChildren store p.relations clause (position + 1) ids drafts).OnlyStalls p := by
      refine ih drafts (fun i hi => ?_) hids
      rw [Nat.add_assoc, Nat.add_comm 1 i]
      exact hbody (i + 1) (Nat.succ_lt_succ hi)
    refine .lift_bind hvars (.bind (readValues_onlyStalls vars) fun values => ?_)
    rw [he]
    exact .bind (hrest _) fun _ => .pure _

/-- A node is expanded by units that fit its clause, if the oracle finds a model. -/
theorem expandNode_onlyStalls (hp : p.Resolved) {id k : Nat} (hclause : p.clauses[k]? = some clause)
    (hfits : store.Fits p id k electrons) (headArguments : List Var) (drafts : List Draft)
    (i : Nat) :
    (expandNode store p.relations clause headArguments electrons drafts i).OnlyStalls p := by
  obtain ⟨clause', hclause', hes⟩ := hfits
  obtain rfl := Option.some.inj (hclause.symm.trans hclause')
  have hknown := hp.known clause (List.mem_of_getElem? hclause)
  have hstored : ∀ i ∈ electrons, ∃ e, store.get? i = some e := fun i hi =>
    (Store.stored_before_of_forall₂ hes i hi).2
  have hus := Store.forall₂_units hstored
  have htakes := Store.forall₂_takes (hes.imp fun _ _ h => h.2) hus
  have hbody : ∀ i, i < electrons.length →
      ∃ vars, clause.bodyArguments p.relations (0 + i) = .ok vars := fun i hi => by
    have ha := List.getElem?_eq_getElem (hes.length_eq ▸ hi : i < clause.body.length)
    rw [NormalizedClause.bodyArguments, Nat.zero_add, ha]
    exact hknown _ (NormalizedClause.Regular.mem_uses_of_body (List.mem_of_getElem? ha))
  refine .bind (.allocate ?_) fun instances => .bind (.ask _) fun answer => ?_
  · rw [storedInstances_eq hus]
    exact total_electronInstances hknown 0 htakes
  · split
    · next hanswer =>
      exact fun _ => ⟨clause, List.mem_of_getElem? hclause, answer, hanswer, rfl⟩
    · exact .bind (placeChildren_onlyStalls drafts hbody hstored) fun _ => .pure _

/-- The nodes of a stored unit are expanded. -/
theorem expandUnit_onlyStalls (hp : p.Resolved) (hs : store.Coherent p) (id : UnitId)
    (drafts : List Draft) : (expandUnit store p drafts id).OnlyStalls p := by
  unfold expandUnit
  split
  · next nucleus electrons hprov =>
    obtain ⟨e, he, hprov⟩ := Option.map_eq_some_iff.mp hprov
    have hfits : store.Fits p id nucleus electrons := by
      have hnames := hs.names id e he
      rwa [hprov] at hnames
    have ⟨clause, hclause, _⟩ := hfits
    obtain ⟨headVars, hheadVars⟩ :=
      (hp.known clause (List.mem_of_getElem? hclause)).headArguments_eq_ok
    have hclauseAt : clauseAt p.clauses nucleus = .ok clause := by rw [clauseAt, hclause]
    refine .lift_bind hclauseAt (.lift_bind hheadVars (.foldlM (fun i _ drafts => ?_) drafts))
    exact expandNode_onlyStalls hp hclause hfits headVars drafts i
  · exact .pure _

end Refutation

/-- In a coherent store every stored unit is traceable. -/
theorem Store.Coherent.traceable {store : Store} {root : UnitId} (hs : store.Coherent p)
    (hroot : ∃ e, store.get? root = some e) : store.Traceable root := by
  refine traceable_of_before ?_ hroot
  rintro id i ⟨e, he, hi⟩
  have hnames := hs.names id e he
  cases hprov : e.provenance with
  | fact clause =>
    rw [hprov] at hi
    cases hi
  | derived nucleus electrons =>
    rw [hprov] at hnames hi
    obtain ⟨_, -, hes⟩ := hnames
    exact Store.stored_before_of_forall₂ hes i hi

/-- The refutation of a stored unit is reconstructed, if the oracle finds a model for each step. -/
theorem Refutation.ofUnit_onlyStalls {store : Store} {root : UnitId} (hp : p.Resolved)
    (hs : store.Coherent p) (hroot : ∃ e, store.get? root = some e) :
    (ofUnit store p root).OnlyStalls p := by
  obtain ⟨order, horder⟩ := (hs.traceable hroot).exists_derivationOrder
  obtain ⟨e, he⟩ := hroot
  refine .lift_bind horder ?_
  rw [he]
  exact .bind (.foldlM (fun id _ => expandUnit_onlyStalls hp hs id) _) fun _ => .pure _

end HornSaturation
