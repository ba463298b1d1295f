import HornSaturation.Proofs.Data.Ensures
import HornSaturation.Proofs.Inference.Redundancy
import HornSaturation.Proofs.Unit.Consistency
import HornSaturation.Run.Step

/-!
# What settling a unit does

What settling a unit does to the stored units and to what has been counted depends on the class of
the unit only. With subsumption by implication it never fails, because the units that are to be
retired are active ones of a single relation, each listed once.
-/

namespace HornSaturation

/-- The stored units after a unit of some class has been settled, and the identifier of a
contradiction. -/
def Store.settled (store : Store) (u : UnitClause) (pr : Provenance) :
    Classification → Except Error (Option UnitId × Store)
  | .contradiction => (store.recordRefutation u pr).map fun (id, units) => (some id, units)
  | .infeasible | .forwardSubsumed => .ok (none, store)
  | .new removed => do
    let left ← removed.foldlM Store.retire store
    (left.insert u pr).map fun (_, units) => (none, units)

/-- What has been counted after a unit of some class has been settled. -/
def Statistics.settled (s : Statistics) : Classification → Statistics
  | .contradiction => s
  | .infeasible => { s with infeasible := s.infeasible + 1 }
  | .forwardSubsumed => { s with forwardSubsumed := s.forwardSubsumed + 1 }
  | .new removed => { s with
    backwardRemoved := s.backwardRemoved + removed.length
    inserted := s.inserted + 1 }

namespace Running

variable {σ : Type} {m : Method σ} {r : Run σ} {u : UnitClause} {pr : Provenance}

/-- Retiring units one after the other touches the stored units only. -/
theorem ensures_retireAll_eq (ids : List UnitId) (r : Run σ) : Ensures (retireAll ids) r
    (fun _ r' => ∃ left, ids.foldlM Store.retire r.units = .ok left ∧ r' = { r with units := left })
    fun e r' => ids.foldlM Store.retire r.units = .error e ∧ r'.workspace = r.workspace := by
  induction ids generalizing r with
  | nil => exact ⟨r.units, rfl, rfl⟩
  | cons id ids ih =>
    unfold retireAll
    simp only [List.forM_eq_forM, List.forM_cons, ensures_bind, ensures_changeStore,
      List.foldlM_cons]
    cases hretire : r.units.retire id with
    | error e =>
      refine ⟨fun _ _ h => ?_, fun _ h => ⟨congrArg _ (Except.error.inj h), trivial⟩⟩
      cases h
    | ok store =>
      refine ⟨fun a units h => ?_, fun _ h => ?_⟩
      · obtain ⟨-, rfl⟩ := Prod.mk.inj (Except.ok.inj h)
        exact ih { r with units := store }
      · cases h

/-- What settling a unit does. -/
structure Settles (m : Method σ) (u : UnitClause) (pr : Provenance) (r : Run σ)
    (result : Option UnitId) (r' : Run σ) : Prop where
  units : r.units.settled u pr (classify m.subsumption r.units u r.workspace.oracle).1 =
    .ok (result, r'.units)
  statistics : r'.statistics =
    r.statistics.settled (classify m.subsumption r.units u r.workspace.oracle).1
  search : r'.search = r.search
  workspace : r'.workspace = { r.workspace with
    oracle := (classify m.subsumption r.units u r.workspace.oracle).2 }

/-- Settling a unit does what its class says, and it asks the oracle for nothing but the class. -/
theorem ensures_settle_eq (m : Method σ) (u : UnitClause) (pr : Provenance) (r : Run σ) :
    Ensures (settle m u pr) r (Settles m u pr r) fun e r' =>
      r.units.settled u pr (classify m.subsumption r.units u r.workspace.oracle).1 = .error e ∧
        r'.workspace = { r.workspace with
          oracle := (classify m.subsumption r.units u r.workspace.oracle).2 } := by
  have hdone {result : Option UnitId} {r' : Run σ} {cls : Classification} {o : Oracle}
      (hcls : classify m.subsumption r.units u r.workspace.oracle = (cls, o))
      (hunits : r.units.settled u pr cls = .ok (result, r'.units))
      (hstatistics : r'.statistics = r.statistics.settled cls) (hsearch : r'.search = r.search)
      (hworkspace : r'.workspace = { r.workspace with oracle := o }) :
      Settles m u pr r result r' :=
    ⟨by rw [hcls, hunits], by rw [hcls, hstatistics], hsearch, by rw [hcls, hworkspace]⟩
  unfold settle
  simp only [ensures_bind, ensures_get, ensures_ask]
  rcases hcls : classify m.subsumption r.units u r.workspace.oracle with ⟨cls, o⟩
  cases cls with
  | contradiction =>
    simp only [ensures_bind, ensures_pure, ensures_changeStore]
    refine ⟨fun root units h => hdone hcls ?_ rfl rfl rfl, fun e h => ?_⟩
    · rw [Store.settled, h]
      rfl
    · rw [Store.settled, h]
      exact ⟨rfl, trivial⟩
  | infeasible => exact hdone hcls rfl rfl rfl rfl
  | forwardSubsumed => exact hdone hcls rfl rfl rfl rfl
  | new removed =>
    simp only [ensures_bind]
    refine (ensures_retireAll_eq removed { r with
      workspace := { r.workspace with oracle := o } }).mono ?_ ?_
    · rintro - r₁ ⟨left, hleft, rfl⟩
      have hsettled (result : Except Error (UnitId × Store)) (h : left.insert u pr = result) :
          r.units.settled u pr (.new removed) =
            result.map fun (_, units) => (none, units) := by
        rw [Store.settled, hleft, ← h]
        rfl
      -- Without retired units nothing is counted for them, which is no difference.
      have hnone (h : ¬ (!removed.isEmpty) = true) :
          ({ r.statistics with inserted := r.statistics.inserted + 1 } : Statistics) =
            r.statistics.settled (.new removed) := by
        rw [Bool.not_eq_true, Bool.not_eq_false', List.isEmpty_iff] at h
        rw [h]
        rfl
      split
      · simp only [ensures_bind, ensures_changeStore, ensures_report, ensures_count]
        refine ⟨fun id units h => ?_, fun e h => ⟨hsettled _ h, trivial⟩⟩
        split <;> exact hdone hcls (hsettled _ h) rfl rfl rfl
      · next hempty =>
        simp only [ensures_bind, ensures_changeStore, ensures_count]
        refine ⟨fun id units h => ?_, fun e h => ⟨hsettled _ h, trivial⟩⟩
        split <;> exact hdone hcls (hsettled _ h) (hnone hempty) rfl rfl
    · rintro e r₁ ⟨h, hworkspace⟩
      rw [Store.settled, h]
      exact ⟨rfl, hworkspace⟩

end Running

namespace Store

variable {store store' : Store} {u : UnitClause} {pr : Provenance} {ids : List UnitId}

/-- A store in which some active units have been retired. -/
structure Thinned (store : Store) (ids : List UnitId) (left : Store) : Prop where
  consistent : left.Consistent
  evolves : store.Evolves left
  size : left.size = store.size
  refutations : left.refutations = store.refutations
  active : left.active.length + ids.length = store.active.length

/-- Stored units can be retired one after the other. -/
theorem Listed.exists_foldlM_retire (hl : store.Listed)
    (hids : ∀ i ∈ ids, ∃ e, store.get? i = some e) :
    ∃ left, ids.foldlM Store.retire store = .ok left := by
  induction ids generalizing store with
  | nil => exact ⟨store, rfl⟩
  | cons id ids ih =>
    obtain ⟨⟨e, he⟩, hrest⟩ := List.forall_mem_cons.mp hids
    obtain ⟨store₁, hretire⟩ := exists_retire he
    have hretires := retires_of_retire hl hretire
    rw [List.foldlM_cons, hretire]
    refine ih (hretires.listed hl) fun i hi => ?_
    obtain ⟨e, he⟩ := hrest i hi
    exact (hretires.evolves.kept i e he).imp fun _ h => h.1

/-- Retiring active units, each of them once. -/
theorem Consistent.thinned (hc : store.Consistent) (hnodup : ids.Nodup)
    (hids : ∀ i ∈ ids, i ∈ store.active) (h : ids.foldlM Store.retire store = .ok store') :
    store.Thinned ids store' := by
  induction ids generalizing store with
  | nil =>
    obtain rfl := Except.ok.inj h
    exact ⟨hc, .refl store, rfl, rfl, rfl⟩
  | cons id ids ih =>
    obtain ⟨hid, hrest⟩ := List.forall_mem_cons.mp hids
    obtain ⟨hnot, hnodup⟩ := List.nodup_cons.mp hnodup
    rw [List.foldlM_cons] at h
    obtain ⟨store₁, hretire, hleft⟩ := Except.bind_eq_ok.mp h
    have hretires := retires_of_retire hc.listed hretire
    obtain ⟨hsize, hrefs⟩ := frame_of_retire hretire
    have hactive : ∀ i ∈ ids, i ∈ store₁.active := fun i hi => by
      rw [hretires.active hsize, List.mem_filter, decide_eq_true_eq]
      exact ⟨hrest i hi, fun heq => hnot (heq ▸ hi)⟩
    have h := ih (hc.retire hretire) hnodup hactive hleft
    refine ⟨h.consistent, hretires.evolves.trans h.evolves, h.size.trans hsize,
      h.refutations.trans hrefs, ?_⟩
    have hlength := hretires.length_active hsize hid
    have := h.active
    rw [List.length_cons]
    omega

/-- With subsumption by implication, every unit can be settled. -/
theorem Listed.exists_settled {o : Oracle} (hl : store.Listed) (u : UnitClause) (pr : Provenance) :
    ∃ result store', store.settled u pr (classify .byImplication store u o).1 =
      .ok (result, store') := by
  rcases h : classify .byImplication store u o with ⟨cls, o'⟩
  cases cls with
  | contradiction =>
    obtain ⟨id, store', hrecord⟩ :=
      store.exists_recordRefutation pr (isRefutation_of_classify h)
    exact ⟨some id, store', by rw [settled, hrecord]; rfl⟩
  | infeasible => exact ⟨none, store, rfl⟩
  | forwardSubsumed => exact ⟨none, store, rfl⟩
  | new removed =>
    obtain ⟨href, hstored⟩ := classify_new_spec hl h
    obtain ⟨left, hleft⟩ := hl.exists_foldlM_retire hstored
    obtain ⟨id, store', hinsert⟩ := left.exists_insert pr href
    exact ⟨none, store', Except.bind_eq_ok.mpr ⟨left, hleft, by rw [hinsert]; rfl⟩⟩

/-- With subsumption by implication, a unit that is classified as new takes the place of active
units. -/
theorem Consistent.replaced_of_settled {o o' : Oracle} {removed : List UnitId}
    {result : Option UnitId} (hc : store.Consistent)
    (hcls : classify .byImplication store u o = (.new removed, o'))
    (h : store.settled u pr (.new removed) = .ok (result, store')) :
    store.containsIdentical u = false ∧ ∃ left id, store.Thinned removed left ∧
      left.insert u pr = .ok (id, store') := by
  obtain ⟨-, hidentical, r, -, hsub⟩ := classify_eq_new hcls
  obtain ⟨left, hleft, hmap⟩ := Except.bind_eq_ok.mp h
  obtain ⟨⟨id, units⟩, hinsert, heq⟩ := Except.map_eq_ok.mp hmap
  obtain ⟨-, rfl⟩ := Prod.mk.inj heq
  have hnodup : removed.Nodup := hsub.nodup ((hc.ordered r).imp Nat.ne_of_lt)
  have hactive : ∀ i ∈ removed, i ∈ store.active := fun i hi => by
    obtain ⟨e, he, ha, -⟩ := (hc.listed r i).mp (hsub.subset hi)
    exact mem_active.mpr ⟨e, he, ha⟩
  exact ⟨hidentical, left, id, hc.thinned hnodup hactive hleft, hinsert⟩

end Store

/-- With subsumption by implication, settling a unit does not fail. -/
theorem Running.ensures_settle_succeeds {σ : Type} {m : Method σ} {r : Run σ}
    (hm : m.subsumption = .byImplication) (hl : r.units.Listed) (u : UnitClause)
    (pr : Provenance) : Ensures (settle m u pr) r (Settles m u pr r) fun _ _ => False := by
  refine (ensures_settle_eq m u pr r).mono (fun _ _ h => h) fun e _ ⟨herror, _⟩ => ?_
  obtain ⟨result, store', hok⟩ := hl.exists_settled (o := r.workspace.oracle) u pr
  rw [hm, hok] at herror
  cases herror

end HornSaturation
