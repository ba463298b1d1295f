import HornSaturation.Proofs.Inference.Resolution
import HornSaturation.Unit.Store

/-!
# Sound stores

In a sound store every unit is well formed and is what its provenance says, and the active units are
listed by their relations. Storing, retiring and recording units keep a store sound. Identifiers
keep their units and their provenance for good, and a unit that is inactive stays so.
-/

namespace HornSaturation

/-- A clause without body, but with a head, derives whatever a unit asserts. -/
def UnitClause.StatedBy (p : NormalizedProblem) (u : UnitClause) (clause : Nat) : Prop :=
  u.head ≠ none ∧ ∃ c, p.clauses[clause]? = some c ∧
    ∀ z g, u.Asserts z p.relations g → c.HasInstance z p.relations [] g

namespace Store

variable {p : NormalizedProblem} {store store' store'' : Store}

/-- The unit that is stored under an identifier asserts a ground atom. -/
def AssertsAt (z : ZeroDivision) (store : Store) (id : UnitId) (g : GroundAtom) : Prop :=
  ∃ e, store.get? id = some e ∧ e.unit.Asserts z store.relations g

/-- Units that were stored before another one serve the uses in the body of a clause that has the
relation of that unit as its head, and the clause derives what that unit asserts from what they
assert. -/
def DerivedFrom (p : NormalizedProblem) (store : Store) (id : UnitId) (u : UnitClause)
    (nucleus : Nat) (electrons : List UnitId) : Prop :=
  ∃ c, p.clauses[nucleus]? = some c ∧ u.head = c.headRelation? ∧
    List.Forall₂ (fun (a : Atom) i => i < id ∧ ∃ e, store.get? i = some e ∧
      e.unit.head = some a.relation) c.body electrons ∧
    ∀ z g, u.Asserts z p.relations g → ∃ body, c.HasInstance z p.relations body g ∧
      List.Forall₂ (store.AssertsAt z) electrons body

/-- A unit is what its provenance says. -/
def Justifies (p : NormalizedProblem) (store : Store) (id : UnitId) (u : UnitClause) :
    Provenance → Prop
  | .fact clause => u.StatedBy p clause
  | .derived nucleus electrons => store.DerivedFrom p id u nucleus electrons

theorem Justifies.mono {i j : UnitId} {u : UnitClause} {pr : Provenance} (hij : i ≤ j)
    (h : store.Justifies p i u pr) : store.Justifies p j u pr := by
  cases pr with
  | fact clause => exact h
  | derived nucleus electrons =>
    obtain ⟨c, hc, hhead, hes, hasserts⟩ := h
    exact ⟨c, hc, hhead,
      hes.imp fun a k ⟨hk, hstored⟩ => ⟨Nat.lt_of_lt_of_le hk hij, hstored⟩, hasserts⟩

/-- The active units of each relation are listed. -/
def Listed (store : Store) : Prop :=
  ∀ r id, id ∈ store.unitIds r ↔
    ∃ e, store.get? id = some e ∧ e.active = true ∧ e.unit.head = some r

/-- The active units of each relation are listed in the order in which they were stored. -/
def Ordered (store : Store) : Prop := ∀ r, (store.unitIds r).Pairwise (· < ·)

/-- What holds of a store in every state of a run. -/
structure Sound (p : NormalizedProblem) (store : Store) : Prop where
  relations : store.relations = p.relations
  wellFormed : ∀ id e, store.get? id = some e → e.unit.WellFormed p.relations
  justified : ∀ id e, store.get? id = some e → store.Justifies p id e.unit e.provenance
  listed : store.Listed
  headed : ∀ id e, store.get? id = some e → e.active = true → e.unit.head ≠ none

/-- What a store keeps when it changes. -/
structure Evolves (store store' : Store) : Prop where
  relations : store'.relations = store.relations
  kept : ∀ id e, store.get? id = some e → ∃ e', store'.get? id = some e' ∧ e'.unit = e.unit ∧
    e'.provenance = e.provenance ∧ (e'.active = true → e.active = true)

/-- The active units of a relation, if they are listed. -/
theorem Listed.mem_unitsOf (hl : store.Listed) {r : RelationId} {id : UnitId} {u : UnitClause} :
    (id, u) ∈ store.unitsOf r ↔
      ∃ e, store.get? id = some e ∧ e.active = true ∧ e.unit = u ∧ u.head = some r := by
  rw [unitsOf, List.mem_filterMap]
  constructor
  · rintro ⟨i, hi, hsome⟩
    obtain ⟨e, he, hactive, hhead⟩ := (hl r i).mp hi
    simp only [he, Option.map_some, Option.some.injEq, Prod.mk.injEq] at hsome
    obtain ⟨rfl, rfl⟩ := hsome
    exact ⟨e, he, hactive, rfl, hhead⟩
  · rintro ⟨e, he, hactive, rfl, hhead⟩
    exact ⟨id, (hl r id).mpr ⟨e, he, hactive, hhead⟩, by simp [he]⟩

theorem unitsOf_sublist (store : Store) (r : RelationId) :
    ((store.unitsOf r).map Prod.fst).Sublist (store.unitIds r) := by
  unfold unitsOf
  induction store.unitIds r with
  | nil => exact .slnil
  | cons i ids ih =>
    rw [List.filterMap_cons]
    cases store.get? i with
    | none => exact ih.cons i
    | some e => exact ih.cons_cons i

/-- Some active unit asserts a ground atom. -/
def Covers (z : ZeroDivision) (store : Store) (g : GroundAtom) : Prop :=
  ∃ id e, store.get? id = some e ∧ e.active = true ∧ e.unit.Asserts z store.relations g

theorem lt_size_of_get? {id : UnitId} {e : StoredUnit} (h : store.get? id = some e) :
    id < store.size := (Array.getElem?_eq_some_iff.mp h).1

theorem exists_get? {id : UnitId} (h : id < store.size) : ∃ e, store.get? id = some e :=
  ⟨_, Array.getElem?_eq_getElem h⟩

/-- A stored unit that is a fact is stated by its clause. -/
theorem Sound.statedBy {id : UnitId} {e : StoredUnit} {clause : Nat} (hs : store.Sound p)
    (he : store.get? id = some e) (hprov : e.provenance = .fact clause) :
    e.unit.StatedBy p clause := by
  have hjust := hs.justified id e he
  rwa [hprov] at hjust

/-- A stored unit that comes from an inference is derived by it. -/
theorem Sound.derivedFrom {id : UnitId} {e : StoredUnit} {nucleus : Nat} {electrons : List UnitId}
    (hs : store.Sound p) (he : store.get? id = some e)
    (hprov : e.provenance = .derived nucleus electrons) :
    store.DerivedFrom p id e.unit nucleus electrons := by
  have hjust := hs.justified id e he
  rwa [hprov] at hjust

/-- The units that serve the uses of a body were stored before. -/
theorem stored_before_of_forall₂ {body : List Atom} {ids : List UnitId} {id : UnitId}
    (h : List.Forall₂ (fun (a : Atom) i => i < id ∧ ∃ e, store.get? i = some e ∧
      e.unit.head = some a.relation) body ids) :
    ∀ i ∈ ids, i < id ∧ ∃ e, store.get? i = some e := fun i hi => by
  obtain ⟨-, -, hlt, e, he, -⟩ := h.flip.exists_right hi
  exact ⟨hlt, e, he⟩

/-- The units under identifiers that are all in use. -/
theorem forall₂_units {ids : List UnitId}
    (h : ∀ i ∈ ids, ∃ e, store.get? i = some e) :
    List.Forall₂ (fun i u => ∃ e, store.get? i = some e ∧ e.unit = u) ids
      (ids.filterMap fun id => (store.get? id).map (·.unit)) := by
  induction ids with
  | nil => exact .nil
  | cons i ids ih =>
    obtain ⟨⟨e, he⟩, hrest⟩ := List.forall_mem_cons.mp h
    simp only [List.filterMap_cons, he, Option.map_some]
    exact .cons ⟨e, he, rfl⟩ (ih hrest)

/-- Stored units of the relations of a body can be read there. -/
theorem forall₂_takes {body : List Atom} {ids : List UnitId} {us : List UnitClause}
    (h : List.Forall₂ (fun (a : Atom) i => ∃ e, store.get? i = some e ∧
      e.unit.head = some a.relation) body ids)
    (hus : List.Forall₂ (fun i u => ∃ e, store.get? i = some e ∧ e.unit = u) ids us) :
    List.Forall₂ Atom.Takes body us := by
  refine h.flip.of_common hus ?_
  rintro i a u ⟨e, he, hrel⟩ ⟨e', he', rfl⟩
  obtain rfl := Option.some.inj (he.symm.trans he')
  exact hrel

namespace Evolves

theorem refl (store : Store) : store.Evolves store :=
  ⟨rfl, fun _ e h => ⟨e, h, rfl, rfl, id⟩⟩

theorem trans (h : store.Evolves store') (h' : store'.Evolves store'') :
    store.Evolves store'' := by
  refine ⟨h'.relations.trans h.relations, fun id e he => ?_⟩
  obtain ⟨e', he', hunit', hprov', hactive'⟩ := h.kept id e he
  obtain ⟨e'', he'', hunit'', hprov'', hactive''⟩ := h'.kept id e' he'
  exact ⟨e'', he'', hunit''.trans hunit', hprov''.trans hprov', hactive' ∘ hactive''⟩

theorem size_le (h : store.Evolves store') : store.size ≤ store'.size := by
  by_contra hlt
  obtain ⟨e, he⟩ := exists_get? (Nat.lt_of_not_le hlt)
  obtain ⟨e', he', -⟩ := h.kept _ e he
  exact Nat.lt_irrefl _ (lt_size_of_get? he')

/-- Identifiers that are not in use yet were not before. -/
theorem get?_eq_none {id : UnitId} (h : store.Evolves store') (hid : store'.get? id = none) :
    store.get? id = none := by
  refine Option.eq_none_iff_forall_ne_some.mpr fun e he => ?_
  obtain ⟨e', he', -⟩ := h.kept id e he
  rw [hid] at he'
  cases he'

/-- A unit that is active later was active ever since it was stored. -/
theorem active {id : UnitId} {e' : StoredUnit} (h : store.Evolves store') (hid : id < store.size)
    (he' : store'.get? id = some e') (ha : e'.active = true) :
    ∃ e, store.get? id = some e ∧ e.active = true ∧ e'.unit = e.unit := by
  obtain ⟨e, he⟩ := exists_get? hid
  obtain ⟨e'', he'', hunit, -, hactive⟩ := h.kept id e he
  obtain rfl := Option.some.inj (he''.symm.trans he')
  exact ⟨e, he, hactive ha, hunit⟩

theorem assertsAt {z : ZeroDivision} {id : UnitId} {g : GroundAtom} (h : store.Evolves store')
    (hg : store.AssertsAt z id g) : store'.AssertsAt z id g := by
  obtain ⟨e, he, hasserts⟩ := hg
  obtain ⟨e', he', hunit, -⟩ := h.kept id e he
  exact ⟨e', he', by rwa [hunit, h.relations]⟩

/-- Units that serve a body go on to serve it. -/
theorem forall₂_before {i j : UnitId} {body : List Atom} {ids : List UnitId}
    (h : store.Evolves store') (hij : i ≤ j)
    (hids : List.Forall₂ (fun (a : Atom) k => k < i ∧ ∃ e, store.get? k = some e ∧
      e.unit.head = some a.relation) body ids) :
    List.Forall₂ (fun (a : Atom) k => k < j ∧ ∃ e, store'.get? k = some e ∧
      e.unit.head = some a.relation) body ids := by
  refine hids.imp ?_
  rintro a k ⟨hk, e, he, hrel⟩
  obtain ⟨e', he', hunit, -⟩ := h.kept k e he
  exact ⟨Nat.lt_of_lt_of_le hk hij, e', he', hunit ▸ hrel⟩

theorem justifies {id : UnitId} {u : UnitClause} {pr : Provenance} (h : store.Evolves store')
    (hj : store.Justifies p id u pr) : store'.Justifies p id u pr := by
  cases pr with
  | fact clause => exact hj
  | derived nucleus electrons =>
    obtain ⟨c, hc, hhead, hes, hasserts⟩ := hj
    refine ⟨c, hc, hhead, h.forall₂_before (Nat.le_refl id) hes, fun z g hg => ?_⟩
    obtain ⟨body, hinst, hbody⟩ := hasserts z g hg
    exact ⟨body, hinst, hbody.imp fun _ _ => h.assertsAt⟩

end Evolves

/-- Changing the entry of one key of a table. -/
theorem lookup_updateIds (f : List UnitId → List UnitId) (r s : RelationId)
    (table : List (RelationId × List UnitId)) :
    ((updateIds f r table).lookup s).getD [] =
      if s = r then f ((table.lookup s).getD []) else (table.lookup s).getD [] := by
  induction table with
  | nil => by_cases hs : s = r <;> simp [updateIds, List.lookup_cons, hs, beq_eq_false_iff_ne.mpr]
  | cons entry table ih =>
    obtain ⟨t, ids⟩ := entry
    rw [updateIds]
    by_cases ht : t = r
    · by_cases hs : s = r <;>
        simp [List.lookup_cons, ht, hs, beq_eq_false_iff_ne.mpr]
    · rw [if_neg ht]
      by_cases hs : s = t
      · simp [hs, ht]
      · simpa [List.lookup_cons, beq_eq_false_iff_ne.mpr hs] using ih

/-- A store without units is sound. -/
theorem sound_empty (p : NormalizedProblem) : Sound p { relations := p.relations } := by
  have hnone (id : UnitId) : Store.get? { relations := p.relations } id = none := by simp [get?]
  refine ⟨rfl, fun id e h => ?_, fun id e h => ?_, fun r id => ⟨nofun, fun ⟨e, h, _⟩ => ?_⟩,
    fun id e h => ?_⟩
  all_goals
    rw [hnone] at h
    cases h

section Changes

variable {u : UnitClause} {pr : Provenance} {id : UnitId}

/-- The entries after one more has been added. -/
theorem get?_push (store : Store) (e : StoredUnit) (i : UnitId) :
    (store.entries.push e)[i]? = if i = store.size then some e else store.get? i :=
  Array.getElem?_push

/-- A store with one more entry at the end, which is listed if it is active. -/
structure Adds (store : Store) (e : StoredUnit) (store' : Store) : Prop where
  relations : store'.relations = store.relations
  entry : ∀ i, store'.get? i = if i = store.size then some e else store.get? i
  unitIds : ∀ r, store'.unitIds r =
    if e.active = true ∧ e.unit.head = some r then store.unitIds r ++ [store.size]
    else store.unitIds r

/-- Storing a unit adds it as an active one of a relation. -/
theorem adds_of_insert (h : store.insert u pr = .ok (id, store')) :
    store.Adds ⟨u, pr, true⟩ store' ∧ u.head ≠ none := by
  unfold insert at h
  split at h
  · next r hhead hpol =>
    obtain ⟨rfl, rfl⟩ := Prod.mk.inj (Except.ok.inj h)
    refine ⟨⟨rfl, get?_push store _, fun s => ?_⟩, by simp [hhead]⟩
    rw [Store.unitIds, lookup_updateIds]
    simp only [hhead, true_and, Option.some.injEq, eq_comm (a := r)]
    rfl
  · cases h

/-- Recording a refuting unit adds it as an inactive one. -/
theorem adds_of_recordRefutation (h : store.recordRefutation u pr = .ok (id, store')) :
    store.Adds ⟨u, pr, false⟩ store' ∧ id = store.size := by
  unfold recordRefutation at h
  split at h
  · obtain ⟨rfl, rfl⟩ := Prod.mk.inj (Except.ok.inj h)
    exact ⟨⟨rfl, get?_push store _, fun r => by simp [Store.unitIds]⟩, rfl⟩
  · cases h

namespace Adds

variable {e : StoredUnit}

theorem get?_old (h : store.Adds e store') {i : UnitId} {e₁ : StoredUnit}
    (he : store.get? i = some e₁) : store'.get? i = some e₁ := by
  rw [h.entry, if_neg (Nat.ne_of_lt (lt_size_of_get? he)), he]

theorem get?_new (h : store.Adds e store') : store'.get? store.size = some e := by
  rw [h.entry, if_pos rfl]

theorem evolves (h : store.Adds e store') : store.Evolves store' :=
  ⟨h.relations, fun _ e₁ he => ⟨e₁, h.get?_old he, rfl, rfl, id⟩⟩

theorem listed (h : store.Adds e store') (hl : store.Listed) : store'.Listed := by
  intro r i
  rw [h.unitIds, h.entry]
  by_cases hi : i = store.size
  · have hnot : i ∉ store.unitIds r := fun hmem => by
      obtain ⟨e, he, -⟩ := (hl r i).mp hmem
      exact Nat.ne_of_lt (lt_size_of_get? he) hi
    rw [if_pos hi]
    split
    · next hnew => simp [hi, hnew]
    · next hnew => exact ⟨fun hmem => absurd hmem hnot, fun ⟨e₁, he₁, hlisted⟩ =>
        absurd (Option.some.inj he₁ ▸ hlisted) hnew⟩
  · rw [if_neg hi, ← hl r i]
    split
    · rw [List.mem_append, List.mem_singleton, or_iff_left hi]
    · rfl

theorem ordered (h : store.Adds e store') (hl : store.Listed) (ho : store.Ordered) :
    store'.Ordered := by
  intro r
  rw [h.unitIds]
  split
  · refine List.pairwise_append.mpr ⟨ho r, List.pairwise_singleton _ _, fun i hi j hj => ?_⟩
    obtain rfl := List.mem_singleton.mp hj
    obtain ⟨e, he, -⟩ := (hl r i).mp hi
    exact lt_size_of_get? he
  · exact ho r

theorem covers {z : ZeroDivision} {g : GroundAtom} (h : store.Adds e store')
    (hg : store.Covers z g) : store'.Covers z g := by
  obtain ⟨i, e₁, he, hactive, hasserts⟩ := hg
  exact ⟨i, e₁, h.get?_old he, hactive, h.relations ▸ hasserts⟩

/-- Adding a unit that is what its provenance says keeps a store sound. -/
theorem sound (h : store.Adds e store') (hs : store.Sound p) (hw : e.unit.WellFormed p.relations)
    (hj : store.Justifies p store.size e.unit e.provenance)
    (hh : e.active = true → e.unit.head ≠ none) : store'.Sound p := by
  refine ⟨h.relations.trans hs.relations, fun i e₁ he => ?_, fun i e₁ he => ?_,
    h.listed hs.listed, fun i e₁ he => ?_⟩
  all_goals
    rw [h.entry] at he
    split at he
  · exact Option.some.inj he ▸ hw
  · exact hs.wellFormed i e₁ he
  · next hi =>
    obtain rfl := Option.some.inj he
    rw [hi]
    exact h.evolves.justifies hj
  · exact h.evolves.justifies (hs.justified i e₁ he)
  · exact Option.some.inj he ▸ hh
  · exact hs.headed i e₁ he

end Adds

/-- A positive unit of a relation can be stored. -/
theorem exists_insert (store : Store) (pr : Provenance) (hu : u.isRefutation = false) :
    ∃ id store', store.insert u pr = .ok (id, store') := by
  rw [UnitClause.isRefutation, Bool.or_eq_false_iff] at hu
  obtain ⟨hhead, hpolarity⟩ := hu
  unfold insert
  split
  · exact ⟨_, _, rfl⟩
  next hnot =>
    obtain ⟨r, hr⟩ := Option.isSome_iff_exists.mp (Option.isNone_eq_false_iff.mp hhead)
    cases hpol : u.polarity with
    | positive => exact absurd hpol (hnot r hr)
    | negative => simp [hpol] at hpolarity

/-- A refuting unit can be recorded. -/
theorem exists_recordRefutation (store : Store) (pr : Provenance) (hu : u.isRefutation = true) :
    ∃ id store', store.recordRefutation u pr = .ok (id, store') := by
  rw [recordRefutation, if_pos hu]
  exact ⟨_, _, rfl⟩

/-- A stored unit can be retired. -/
theorem exists_retire {e : StoredUnit} (he : store.get? id = some e) :
    ∃ store', store.retire id = .ok store' := by
  unfold retire
  rw [he]
  dsimp only
  split
  · exact ⟨_, rfl⟩
  · exact ⟨_, rfl⟩

/-- Storing a unit keeps the store sound, and the store then covers what the unit asserts, too. -/
theorem insert_spec (hs : store.Sound p) (hw : u.WellFormed p.relations)
    (hj : store.Justifies p store.size u pr) (h : store.insert u pr = .ok (id, store')) :
    store'.Sound p ∧ store.Evolves store' ∧
      ∀ z g, store.Covers z g ∨ u.Asserts z p.relations g → store'.Covers z g := by
  obtain ⟨hadds, hhead⟩ := adds_of_insert h
  refine ⟨hadds.sound hs hw hj fun _ => hhead, hadds.evolves, fun z g hg => ?_⟩
  refine hg.elim hadds.covers fun hasserts => ⟨store.size, _, hadds.get?_new, rfl, ?_⟩
  rwa [hadds.relations, hs.relations]

/-- Recording a refuting unit keeps the store sound. -/
theorem recordRefutation_spec (hs : store.Sound p) (hw : u.WellFormed p.relations)
    (hj : store.Justifies p store.size u pr)
    (h : store.recordRefutation u pr = .ok (id, store')) :
    store'.Sound p ∧ store.Evolves store' ∧ store'.get? id = some ⟨u, pr, false⟩ ∧
      ∀ z g, store.Covers z g → store'.Covers z g := by
  obtain ⟨hadds, rfl⟩ := adds_of_recordRefutation h
  exact ⟨hadds.sound hs hw hj nofun, hadds.evolves, hadds.get?_new, fun z g => hadds.covers⟩

/-- A store in which a unit is inactive and listed no more, and all else is as in another one. -/
structure Retires (store : Store) (id : UnitId) (store' : Store) : Prop where
  relations : store'.relations = store.relations
  entry : ∃ e, store.get? id = some e ∧
    ∀ i, store'.get? i = if i = id then some { e with active := false } else store.get? i
  unitIds : ∀ r, store'.unitIds r = (store.unitIds r).filter (· ≠ id)

/-- Retiring a stored unit makes it inactive. -/
theorem retires_of_retire (hl : store.Listed) (h : store.retire id = .ok store') :
    store.Retires id store' := by
  unfold retire at h
  split at h
  · cases h
  next e he =>
  have hkept {r : RelationId} (hnot : ¬ (e.active = true ∧ e.unit.head = some r)) :
      store.unitIds r = (store.unitIds r).filter (· ≠ id) := by
    refine (List.filter_eq_self.mpr fun i hi => ?_).symm
    have hne : i ≠ id := by
      rintro rfl
      obtain ⟨e₁, he₁, hlisted⟩ := (hl r i).mp hi
      obtain rfl := Option.some.inj (he.symm.trans he₁)
      exact hnot hlisted
    simpa using hne
  split at h
  · obtain rfl := Except.ok.inj h
    refine ⟨rfl, ⟨e, he, fun i => ?_⟩, fun r => ?_⟩
    · have hset : (store.entries.setIfInBounds id { e with active := false })[i]? = _ :=
        Array.getElem?_setIfInBounds
      have hlt : id < store.entries.size := lt_size_of_get? he
      simp only [eq_comm (a := id), if_pos hlt] at hset
      exact hset
    · unfold Store.unitIds
      cases hhead : e.unit.head with
      | none => exact hkept (by simp [hhead])
      | some s =>
        dsimp only
        rw [lookup_updateIds]
        split
        · rfl
        · next hrs => exact hkept (by simpa [hhead] using fun _ => Ne.symm hrs)
  · next hactive =>
    obtain rfl := Except.ok.inj h
    refine ⟨rfl, ⟨e, he, fun i => ?_⟩, fun r => hkept fun h => hactive h.1⟩
    split
    · next hi =>
      have hsame : { e with active := false } = e := by
        rw [Bool.not_eq_true] at hactive
        rw [← hactive]
      rw [hsame, hi, he]
    · rfl

namespace Retires

theorem get?_other (h : store.Retires id store') {i : UnitId} (hi : i ≠ id) :
    store'.get? i = store.get? i := by
  obtain ⟨e, -, hget⟩ := h.entry
  rw [hget, if_neg hi]

/-- Every unit that is stored afterwards was stored before. -/
theorem exists_before (h : store.Retires id store') {i : UnitId} {e' : StoredUnit}
    (he' : store'.get? i = some e') :
    ∃ e, store.get? i = some e ∧ e'.unit = e.unit ∧ e'.provenance = e.provenance ∧
      (e'.active = true → e.active = true) := by
  by_cases hi : i = id
  · obtain ⟨e, he, hget⟩ := h.entry
    rw [hget, if_pos hi] at he'
    obtain rfl := Option.some.inj he'
    exact ⟨e, hi ▸ he, rfl, rfl, nofun⟩
  · exact ⟨e', by rw [← h.get?_other hi, he'], rfl, rfl, fun ha => ha⟩

theorem evolves (h : store.Retires id store') : store.Evolves store' := by
  refine ⟨h.relations, fun i e he => ?_⟩
  by_cases hi : i = id
  · obtain ⟨e₁, he₁, hget⟩ := h.entry
    subst hi
    obtain rfl := Option.some.inj (he.symm.trans he₁)
    exact ⟨_, (hget i).trans (if_pos rfl), rfl, rfl, nofun⟩
  · exact ⟨e, by rw [h.get?_other hi, he], rfl, rfl, fun ha => ha⟩

theorem listed (h : store.Retires id store') (hl : store.Listed) : store'.Listed := by
  intro r i
  rw [h.unitIds, List.mem_filter, decide_eq_true_eq, hl]
  by_cases hi : i = id
  · obtain ⟨e, -, hget⟩ := h.entry
    simp [hi, hget]
  · simp [hi, h.get?_other hi]

theorem ordered (h : store.Retires id store') (ho : store.Ordered) : store'.Ordered := by
  intro r
  rw [h.unitIds]
  exact (ho r).filter _

end Retires

/-- Retiring a unit keeps the store sound and touches no other unit. -/
theorem retire_spec (hs : store.Sound p) (h : store.retire id = .ok store') :
    store'.Sound p ∧ store.Evolves store' ∧ ∀ i, i ≠ id → store'.get? i = store.get? i := by
  have hretires := retires_of_retire hs.listed h
  refine ⟨⟨hretires.relations.trans hs.relations, fun i e' he' => ?_, fun i e' he' => ?_,
    hretires.listed hs.listed, fun i e' he' ha => ?_⟩, hretires.evolves,
    fun i => hretires.get?_other⟩
  all_goals obtain ⟨e, he, hunit, hprov, hactive⟩ := hretires.exists_before he'
  · exact hunit ▸ hs.wellFormed i e he
  · rw [hunit, hprov]
    exact hretires.evolves.justifies (hs.justified i e he)
  · exact hunit ▸ hs.headed i e he (hactive ha)

/-- The stores that come about from an empty one by storing, retiring and recording units. -/
inductive Built (relations : List Relation) : Store → Prop
  | empty : Built relations { relations }
  | insert {store store' : Store} {u : UnitClause} {pr : Provenance} {id : UnitId}
      (h : Built relations store) (hinsert : store.insert u pr = .ok (id, store')) :
      Built relations store'
  | retire {store store' : Store} {id : UnitId} (h : Built relations store)
      (hretire : store.retire id = .ok store') : Built relations store'
  | recordRefutation {store store' : Store} {u : UnitClause} {pr : Provenance} {id : UnitId}
      (h : Built relations store) (hrecord : store.recordRefutation u pr = .ok (id, store')) :
      Built relations store'

/-- However a store has come about, its active units are listed by relation. -/
theorem Built.spec {relations : List Relation} (h : Built relations store) :
    store.relations = relations ∧ store.Listed := by
  induction h with
  | empty => exact ⟨rfl, (sound_empty ⟨relations, []⟩).listed⟩
  | insert _ hinsert ih =>
    have hadds := (adds_of_insert hinsert).1
    exact ⟨hadds.relations.trans ih.1, hadds.listed ih.2⟩
  | retire _ hretire ih =>
    have hretires := retires_of_retire ih.2 hretire
    exact ⟨hretires.relations.trans ih.1, hretires.listed ih.2⟩
  | recordRefutation _ hrecord ih =>
    have hadds := (adds_of_recordRefutation hrecord).1
    exact ⟨hadds.relations.trans ih.1, hadds.listed ih.2⟩

end Changes

end Store

end HornSaturation
