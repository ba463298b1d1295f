import HornSaturation.Proofs.Clause.Normalization
import HornSaturation.Proofs.Unit.Store
import HornSaturation.Run.Step

/-!
# The units that a run settles

A run settles the reduced units of the facts of its problem and the resolvents of candidates that
keep the contract of search strategies. Such a unit is well formed and is what its provenance says,
whatever the strategy is and whichever symbols were taken before.
-/

namespace HornSaturation

section Facts

variable {relations : List Relation} {c : NormalizedClause} {u : UnitClause}

/-- The unit of a clause without body has the constraint of the clause. -/
theorem UnitClause.ofNormalized_constraint (h : UnitClause.ofNormalized c = .ok u) :
    u.constraint = c.constraint := by
  unfold ofNormalized at h
  split at h
  · split at h <;> rw [← Except.ok.inj h]
  · cases h

/-- A clause without body has a unit, of the relation of its head. -/
theorem UnitClause.exists_ofNormalized (hc : c.isUnit = true) :
    ∃ u, UnitClause.ofNormalized c = .ok u ∧ u.head = c.headRelation? := by
  unfold NormalizedClause.isUnit at hc
  unfold ofNormalized NormalizedClause.headRelation?
  rw [if_pos hc]
  cases c.head with
  | none => exact ⟨_, rfl, rfl⟩
  | some a => exact ⟨_, rfl, rfl⟩

/-- The unit of a clause without body asserts exactly the instances of the clause. -/
theorem UnitClause.ofNormalized_spec (hc : c.Regular relations)
    (h : UnitClause.ofNormalized c = .ok u) : c.body = [] ∧ u.head = c.headRelation? ∧
      u.WellFormed relations ∧ (u.isRefutation = true ↔ c.head = none) ∧
      ∀ z g, u.Asserts z relations g ↔ c.HasInstance z relations [] g := by
  unfold ofNormalized at h
  split at h
  · next hbody =>
    have hbody : c.body = [] := List.isEmpty_iff.mp hbody
    obtain ⟨vars, hvars⟩ := hc.headArguments_eq_ok
    have hu : u.head = c.headRelation? ∧ u.arguments relations = .ok vars ∧
        u.constraint = c.constraint ∧ (u.isRefutation = true ↔ c.head = none) := by
      rw [← hvars]
      unfold NormalizedClause.headRelation? NormalizedClause.headArguments
      split at h <;> obtain rfl := Except.ok.inj h
      · next a hhead => rw [hhead]; exact ⟨rfl, rfl, rfl, by simp [isRefutation]⟩
      · next hhead => rw [hhead]; exact ⟨rfl, rfl, rfl, by simp [isRefutation]⟩
    obtain ⟨hhead, hargs, hconstraint, href⟩ := hu
    refine ⟨hbody, hhead, ⟨hconstraint ▸ hc.sorted, vars, hargs, fun v hv => ?_⟩, href,
      fun z g => ?_⟩
    · rw [hconstraint] at hv
      rcases hc.occurrences v hv with ⟨a, ha, vs, hvs, hva⟩ | hplain
      · refine .inl ?_
        unfold NormalizedClause.headArguments at hvars
        rw [NormalizedClause.uses, hbody, List.nil_append] at ha
        rw [Option.mem_toList] at ha
        rw [Option.mem_def.mp ha] at hvars
        rwa [Except.ok.inj (hvars.symm.trans hvs)]
      · exact .inr (not_isReserved hplain).1
    · rw [Asserts, admits_iff hargs, hhead, hconstraint, NormalizedClause.HasInstance, hbody]
      simp only [headDenotes_iff hvars, List.forall₂_nil_left_iff, true_and]
      constructor
      · rintro ⟨hrel, ρ, hxs, hρ⟩
        exact ⟨ρ, hρ, hrel.symm, hxs⟩
      · rintro ⟨ρ, hρ, hrel, hxs⟩
        exact ⟨hrel.symm, ρ, hxs, hρ⟩
  · cases h

/-- Recording the contradiction that a clause without body states keeps the store sound. -/
theorem Store.recordRefutation_ofNormalized_spec {p : NormalizedProblem} {store store' : Store}
    {id : UnitId} (hp : p.Regular) (hs : store.Sound p) (hc : c ∈ p.clauses)
    (hu : UnitClause.ofNormalized c = .ok u)
    (h : store.recordRefutation u (.derived c.index []) = .ok (id, store')) :
    store'.Sound p ∧ store.Evolves store' ∧
      store'.get? id = some ⟨u, .derived c.index [], false⟩ ∧
      ∀ z g, store.Covers z g → store'.Covers z g := by
  obtain ⟨hindex, hreg⟩ := hp.of_mem hc
  obtain ⟨hbody, hhead, hw, -, hasserts⟩ := UnitClause.ofNormalized_spec hreg hu
  have hj : store.Justifies p store.size u (.derived c.index []) :=
    ⟨c, hindex, hhead, hbody ▸ .nil, fun z g hg => ⟨[], (hasserts z g).mp hg, .nil⟩⟩
  exact recordRefutation_spec hs hw hj h

end Facts

namespace Running

variable {p : NormalizedProblem}

/-- Units that are found fit are active and have the relations of the uses. -/
theorem fit_of_findUnfit {store : Store} {body : List Atom} {ids : List UnitId}
    (hlen : body.length = ids.length) (h : findUnfit store body ids = none) :
    List.Forall₂ (fun (a : Atom) i => ∃ e, store.get? i = some e ∧ e.active = true ∧
      e.unit.head = some a.relation) body ids := by
  induction body generalizing ids with
  | nil =>
    obtain rfl := List.length_eq_zero_iff.mp hlen.symm
    exact .nil
  | cons a body ih =>
    cases ids with
    | nil => cases hlen
    | cons i ids =>
      unfold findUnfit at h
      split at h
      · next e he =>
        split at h
        · next hfit =>
          simp only [Bool.and_eq_true, decide_eq_true_eq] at hfit
          exact .cons ⟨e, he, hfit⟩ (ih (Nat.succ.inj hlen) h)
        · cases h
      · cases h

/-- The premises of an inference are a clause with a body and active units for its uses. -/
theorem premises_spec {store : Store} {c : Candidate} {clause : NormalizedClause}
    {us : List UnitClause} (h : premises p store c = .ok (clause, us)) :
    p.clauses[c.nucleus]? = some clause ∧ clause.body ≠ [] ∧
      List.Forall₂ (fun (a : Atom) i => ∃ e, store.get? i = some e ∧ e.active = true ∧
        e.unit.head = some a.relation) clause.body c.electrons ∧
      List.Forall₂ (fun i u => ∃ e, store.get? i = some e ∧ e.unit = u) c.electrons us := by
  unfold premises at h
  split at h
  · cases h
  next hclause =>
  split at h
  · cases h
  next hbody =>
  split at h
  · cases h
  next hlen =>
  split at h
  · cases h
  next hfit =>
  obtain ⟨rfl, rfl⟩ := Prod.mk.inj (Except.ok.inj h)
  have hall := fit_of_findUnfit (not_not.mp hlen) hfit
  refine ⟨hclause, by simpa using hbody, hall, Store.forall₂_units fun i hi => ?_⟩
  obtain ⟨-, -, e, he, -⟩ := hall.flip.exists_right hi
  exact ⟨e, he⟩

end Running

/-- A unit that a run may have to settle, with its provenance: the reduced unit of a fact, or the
resolvent of a candidate whose units are active. -/
inductive Offered {σ : Type} (m : Method σ) (p : NormalizedProblem) (store : Store) :
    UnitClause → Provenance → Prop
  | fact {c : NormalizedClause} {u₀ u : UnitClause} {s s' : Symbols} (hc : c ∈ p.clauses)
      (hhead : c.head ≠ none) (hu₀ : UnitClause.ofNormalized c = .ok u₀)
      (hu : (reduceUnit m.simplifier p.relations u₀).run.run s = (.ok u, s')) :
      Offered m p store u (.fact c.index)
  | resolvent {c : Candidate} {nucleus : NormalizedClause} {electrons : List UnitClause}
      {u : UnitClause} {s s' : Symbols}
      (hpremises : Running.premises p store c = .ok (nucleus, electrons))
      (hu : (resolve m.simplifier p.relations nucleus electrons).run.run s = (.ok u, s')) :
      Offered m p store u (.derived c.nucleus c.electrons)

section Offered

variable {σ : Type} {m : Method σ} {p : NormalizedProblem} {store : Store} {u : UnitClause}
  {pr : Provenance}

/-- The reduced unit of a fact asserts the instances of its clause. -/
theorem reducedFact_spec {c : NormalizedClause} {u₀ : UnitClause} {s s' : Symbols}
    (hp : p.Regular) (hc : c ∈ p.clauses) (hu₀ : UnitClause.ofNormalized c = .ok u₀)
    (hu : (reduceUnit .project p.relations u₀).run.run s = (.ok u, s')) :
    c.body = [] ∧ u.head = c.headRelation? ∧ u.WellFormed p.relations ∧
      (u.isRefutation = true ↔ c.head = none) ∧
      ∀ z g, u.Asserts z p.relations g ↔ c.HasInstance z p.relations [] g := by
  obtain ⟨hbody, hhead, hw, href, hasserts⟩ := UnitClause.ofNormalized_spec (hp.of_mem hc).2 hu₀
  obtain ⟨vars, hvars, -⟩ := hw.arguments
  obtain ⟨hsame, -⟩ := (ensures_reduceUnit hvars hw.sorted s).of_ok hu
  refine ⟨hbody, hsame.head.trans hhead, hsame.wellFormed, ?_, fun z g =>
    (hsame.asserts z g).trans (hasserts z g)⟩
  rw [← href, UnitClause.isRefutation, UnitClause.isRefutation, hsame.head, hsame.polarity]

/-- The resolvent of a candidate asserts the heads of the instances whose bodies its units assert.
-/
theorem resolvent_spec {c : Candidate} {nucleus : NormalizedClause}
    {electrons : List UnitClause} {s s' : Symbols} (hp : p.Regular) (hs : store.Sound p)
    (hpremises : Running.premises p store c = .ok (nucleus, electrons))
    (hu : (resolve .project p.relations nucleus electrons).run.run s = (.ok u, s')) :
    Resolvent p.relations nucleus electrons u := by
  obtain ⟨hclause, -, -, hus⟩ := Running.premises_spec hpremises
  refine ((ensures_resolve hp.relations (hp.clause _ _ hclause).2 (fun w hw => ?_) s).of_ok hu).1
  obtain ⟨i, -, e, he, rfl⟩ := hus.flip.exists_right hw
  exact (hs.wellFormed i e he).sorted

/-- The resolvent of a candidate without head has no name at two sorts, for its symbols are all new.
-/
theorem oneSort_of_resolvent {c : Candidate} {nucleus : NormalizedClause}
    {electrons : List UnitClause} {s s' : Symbols} (hp : p.Regular) (hs : store.Sound p)
    (hpremises : Running.premises p store c = .ok (nucleus, electrons))
    (hu : (resolve .project p.relations nucleus electrons).run.run s = (.ok u, s'))
    (hhead : u.head = none) : OneSort u.constraint.occurrences := by
  obtain ⟨hclause, -, -, hus⟩ := Running.premises_spec hpremises
  have hsorted : ∀ w ∈ electrons, w.constraint.hasSort .bool = true := fun w hw => by
    obtain ⟨i, -, e, he, rfl⟩ := hus.flip.exists_right hw
    exact (hs.wellFormed i e he).sorted
  have hresolve := ensures_resolve hp.relations (hp.clause _ _ hclause).2 hsorted s
  obtain ⟨-, vars, fresh, hvars, htaken, hocc⟩ := hresolve.of_ok hu
  rw [UnitClause.arguments, hhead] at hvars
  obtain rfl := Except.ok.inj hvars
  have hfresh : ∀ v ∈ u.constraint.occurrences, v ∈ fresh := fun v hv =>
    (hocc v hv).resolve_left List.not_mem_nil
  intro v hv w hw hname
  exact htaken.eq_of_name (hfresh v hv) (hfresh w hw) hname

/-- A unit that is offered is well formed and what its provenance says. -/
theorem Offered.spec (hp : p.Regular) (hm : m.simplifier = Term.project) (hs : store.Sound p)
    (h : Offered m p store u pr) :
    u.WellFormed p.relations ∧ store.Justifies p store.size u pr := by
  cases h with
  | @fact c u₀ _ s s' hc hhead hu₀ hu =>
    rw [hm] at hu
    obtain ⟨-, hrel, hw, -, hasserts⟩ := reducedFact_spec hp hc hu₀ hu
    refine ⟨hw, ?_, c, (hp.of_mem hc).1, fun z g => (hasserts z g).mp⟩
    rw [hrel, NormalizedClause.headRelation?]
    simpa using hhead
  | @resolvent c nucleus electrons _ s s' hpremises hu =>
    rw [hm] at hu
    obtain ⟨hclause, -, hfit, hus⟩ := Running.premises_spec hpremises
    have hresolvent := resolvent_spec hp hs hpremises hu
    refine ⟨hresolvent.wellFormed, nucleus, hclause, hresolvent.head, ?_, fun z g hg => ?_⟩
    · refine hfit.imp ?_
      rintro a i ⟨e, he, -, hrel⟩
      exact ⟨Store.lt_size_of_get? he, e, he, hrel⟩
    · obtain ⟨body, hinst, hbody⟩ := (hresolvent.asserts z g).mp hg
      refine ⟨body, hinst, hus.flip.of_common hbody ?_⟩
      rintro w i g ⟨e, he, rfl⟩ hasserts
      exact ⟨e, he, hs.relations ▸ hasserts⟩

end Offered

end HornSaturation
