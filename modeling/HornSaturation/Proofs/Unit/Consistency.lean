import HornSaturation.Proofs.Data.Ensures
import HornSaturation.Proofs.Unit.Store
import Mathlib.Data.List.Nodup
import Mathlib.Data.List.Perm.Basic

/-!
# Consistent stores

A store says in several places which units are active and which stand for contradictions: in its
entries, in the lists of active units by relation, in the list of refutations and in the number of
its changes. However units are stored, retired and recorded, all of these agree, what is stored
stays as it is, and a call that fails changes nothing.
-/

namespace HornSaturation.Store

variable {store store' : Store} {u : UnitClause} {pr : Provenance} {id : UnitId} {error : Error}

section Results

/-- Exactly the positive units of relations are stored; they come last and are active. -/
theorem insert_eq_ok : store.insert u pr = .ok (id, store') ↔
    ∃ r, u.head = some r ∧ u.polarity = .positive ∧ id = store.size ∧ store' = { store with
      entries := store.entries.push ⟨u, pr, true⟩
      activeUnits := updateIds (· ++ [store.size]) r store.activeUnits
      generation := store.generation + 1 } := by
  unfold insert
  split
  · next r hhead hpolarity =>
    simp only [hhead, hpolarity, Except.ok.injEq, Prod.mk.injEq, Option.some.injEq, true_and,
      exists_eq_left', eq_comm]
  · next hnot =>
    constructor
    · intro h
      cases h
    · rintro ⟨r, hhead, hpolarity, -⟩
      exact absurd hpolarity (hnot r hhead)

/-- Storing fails for units that stand for a contradiction. -/
theorem insert_eq_error : store.insert u pr = .error error ↔
    u.isRefutation = true ∧ error = .internal (.notStorable (u.render store.relations)) := by
  unfold insert UnitClause.isRefutation
  split
  · next hhead hpolarity => simp [hhead, hpolarity]
  · next hnot =>
    have href : (u.head.isNone || decide (u.polarity = .negative)) = true := by
      cases hhead : u.head with
      | none => rfl
      | some r =>
        cases hpolarity : u.polarity with
        | positive => exact absurd hpolarity (hnot r hhead)
        | negative => rfl
    exact ⟨fun h => ⟨href, (Except.error.inj h).symm⟩, fun h => h.2 ▸ rfl⟩

/-- Exactly the units that stand for a contradiction are recorded; they come last and are inactive.
-/
theorem recordRefutation_eq_ok : store.recordRefutation u pr = .ok (id, store') ↔
    u.isRefutation = true ∧ id = store.size ∧ store' = { store with
      entries := store.entries.push ⟨u, pr, false⟩
      refutations := store.refutations ++ [store.size]
      generation := store.generation + 1 } := by
  unfold recordRefutation
  split
  · next href =>
    constructor
    · intro h
      obtain ⟨hid, hstore⟩ := Prod.mk.inj (Except.ok.inj h)
      exact ⟨href, hid.symm, hstore.symm⟩
    · rintro ⟨-, rfl, rfl⟩
      rfl
  · next href => simp [href]

/-- Recording fails for all other units. -/
theorem recordRefutation_eq_error : store.recordRefutation u pr = .error error ↔
    u.isRefutation = false ∧ error = .internal (.notRefutation (u.render store.relations)) := by
  unfold recordRefutation
  split
  · next href => simp [href]
  · next href => simp [Bool.not_eq_true _ ▸ href, eq_comm]

/-- Retiring a unit that is active takes it off the list of its relation, and retiring one that is
inactive changes nothing. -/
theorem retire_cases (h : store.retire id = .ok store') : ∃ e, store.get? id = some e ∧
    (e.active = false ∧ store' = store ∨ e.active = true ∧ store' = { store with
      entries := store.entries.setIfInBounds id { e with active := false }
      activeUnits := match e.unit.head with
        | some r => updateIds (·.filter (· ≠ id)) r store.activeUnits
        | none => store.activeUnits
      generation := store.generation + 1 }) := by
  unfold retire at h
  split at h
  · cases h
  next e he =>
  refine ⟨e, he, ?_⟩
  split at h
  · next hactive => exact .inr ⟨hactive, (Except.ok.inj h).symm⟩
  · next hactive => exact .inl ⟨Bool.not_eq_true _ ▸ hactive, (Except.ok.inj h).symm⟩

theorem frame_of_retire (h : store.retire id = .ok store') :
    store'.size = store.size ∧ store'.refutations = store.refutations := by
  obtain ⟨e, -, ⟨-, rfl⟩ | ⟨-, rfl⟩⟩ := retire_cases h
  · exact ⟨rfl, rfl⟩
  · exact ⟨Array.size_setIfInBounds, rfl⟩

/-- Retiring fails for units that are not stored. -/
theorem retire_eq_error : store.retire id = .error error ↔
    store.get? id = none ∧ error = .internal (.noUnit id) := by
  unfold retire
  split
  · next hnone => simp [hnone, eq_comm]
  · next he => split <;> simp [he]

end Results

section Active

/-- A unit is active exactly if its entry says so. -/
theorem mem_active : id ∈ store.active ↔ ∃ e, store.get? id = some e ∧ e.active = true := by
  rw [active, List.mem_filter, List.mem_range, isActive, Option.any_eq_true]
  exact ⟨fun h => h.2, fun ⟨e, he, ha⟩ => ⟨lt_size_of_get? he, e, he, ha⟩⟩

theorem isActive_iff : store.isActive id = true ↔ id ∈ store.active := by
  rw [mem_active, isActive, Option.any_eq_true]

theorem nodup_active (store : Store) : store.active.Nodup := List.nodup_range.filter _

/-- A unit that is added is the last of the active ones, if it is active. -/
theorem Adds.active {e : StoredUnit} (h : store.Adds e store')
    (hsize : store'.size = store.size + 1) :
    store'.active = store.active ++ bif e.active then [store.size] else [] := by
  have hnew : store'.isActive store.size = e.active := by
    rw [isActive, h.get?_new, Option.any_some]
  have hold : (List.range store.size).filter store'.isActive = store.active := by
    refine List.filter_congr fun i hi => ?_
    rw [isActive, h.entry, if_neg (Nat.ne_of_lt (List.mem_range.mp hi)), isActive]
  rw [Store.active, hsize, List.range_succ, List.filter_append, hold, List.filter_singleton, hnew]

/-- The unit that is retired is no longer among the active ones. -/
theorem Retires.active (h : store.Retires id store') (hsize : store'.size = store.size) :
    store'.active = store.active.filter (· ≠ id) := by
  obtain ⟨e, -, hentry⟩ := h.entry
  rw [Store.active, hsize, Store.active, List.filter_filter]
  refine List.filter_congr fun i _ => ?_
  by_cases hi : i = id <;> simp [isActive, hentry, hi]

theorem Retires.length_active (h : store.Retires id store') (hsize : store'.size = store.size)
    (hid : id ∈ store.active) : store'.active.length + 1 = store.active.length := by
  have herase : store.active.erase id = store'.active := by
    rw [h.active hsize, (nodup_active store).erase_eq_filter]
    exact List.filter_congr fun i _ => by rw [Bool.eq_iff_iff]; simp
  exact herase ▸ List.length_erase_add_one hid

/-- The relations with a list of active units, after one of the lists has been changed. -/
theorem map_fst_updateIds (f : List UnitId → List UnitId) (r : RelationId)
    (table : List (RelationId × List UnitId)) : (updateIds f r table).map Prod.fst =
      if r ∈ table.map Prod.fst then table.map Prod.fst else table.map Prod.fst ++ [r] := by
  induction table with
  | nil => rfl
  | cons entry table ih =>
    rw [updateIds]
    split
    · next heq => simp [heq]
    · next hne =>
      simp only [List.map_cons, ih, List.mem_cons, or_iff_right (Ne.symm hne)]
      split <;> rfl

theorem nodup_updateIds {f : List UnitId → List UnitId} {r : RelationId}
    {table : List (RelationId × List UnitId)} (h : (table.map Prod.fst).Nodup) :
    ((updateIds f r table).map Prod.fst).Nodup := by
  rw [map_fst_updateIds]
  split
  · exact h
  · next hr => exact List.concat_eq_append ▸ h.concat hr

end Active

/-- The parts of a store agree. -/
structure Consistent (store : Store) : Prop where
  listed : store.Listed
  ordered : store.Ordered
  /-- No relation has two lists of active units. -/
  keyed : (store.activeUnits.map Prod.fst).Nodup
  headed : ∀ id ∈ store.active, ∃ r, id ∈ store.unitIds r
  increasing : store.refutations.Pairwise (· < ·)
  refuting : ∀ id, id ∈ store.refutations ↔
    ∃ e, store.get? id = some e ∧ e.unit.isRefutation = true
  inactive : ∀ id ∈ store.refutations, id ∉ store.active
  /-- A unit that is stored counts twice, unless it stands for a contradiction or is active. -/
  counted : store.generation + store.active.length + store.refutations.length = 2 * store.size

namespace Consistent

theorem empty (relations : List Relation) : Consistent { relations } where
  listed := (sound_empty ⟨relations, []⟩).listed
  ordered r := .nil
  keyed := .nil
  headed := nofun
  increasing := .nil
  refuting id := ⟨nofun, fun ⟨e, he, _⟩ => by simp [get?] at he⟩
  inactive := nofun
  counted := rfl

theorem insert (hc : store.Consistent) (h : store.insert u pr = .ok (id, store')) :
    store'.Consistent := by
  have hadds := (adds_of_insert h).1
  obtain ⟨r, hhead, hpolarity, rfl, heq⟩ := insert_eq_ok.mp h
  have hsize : store'.size = store.size + 1 := by
    rw [heq]
    exact Array.size_push _
  have hactive : store'.active = store.active ++ [store.size] := hadds.active hsize
  have hrefs : store'.refutations = store.refutations := by rw [heq]
  have hfresh : store.size ∉ store.refutations := fun hmem => by
    obtain ⟨e, he, -⟩ := (hc.refuting _).mp hmem
    exact Nat.lt_irrefl _ (lt_size_of_get? he)
  have hnot : u.isRefutation = false := by simp [UnitClause.isRefutation, hhead, hpolarity]
  have hids : ∀ s i, i ∈ store.unitIds s → i ∈ store'.unitIds s := fun s i hi => by
    rw [hadds.unitIds]
    split
    · exact List.mem_append_left _ hi
    · exact hi
  refine ⟨hadds.listed hc.listed, hadds.ordered hc.listed hc.ordered, ?_, ?_,
    hrefs ▸ hc.increasing, fun i => ?_, fun i hi => ?_, ?_⟩
  · rw [heq]
    exact nodup_updateIds hc.keyed
  · rw [hactive]
    refine List.forall_mem_append.mpr ⟨fun i hi => (hc.headed i hi).imp fun s => hids s i, ?_⟩
    refine List.forall_mem_singleton.mpr ⟨r, ?_⟩
    rw [hadds.unitIds, if_pos ⟨rfl, hhead⟩]
    exact List.mem_append_right _ List.mem_cons_self
  · rw [hrefs, hc.refuting, hadds.entry]
    split
    · next hi =>
      subst hi
      simp [hnot, show store.get? store.size = none from Array.getElem?_size]
    · rfl
  · rw [hrefs] at hi
    rw [hactive, List.mem_append, List.mem_singleton]
    rintro (hmem | rfl)
    · exact hc.inactive i hi hmem
    · exact hfresh hi
  · have hgeneration : store'.generation = store.generation + 1 := by rw [heq]
    rw [hgeneration, hactive, hrefs, hsize, List.length_append, List.length_singleton]
    have := hc.counted
    omega

theorem recordRefutation (hc : store.Consistent)
    (h : store.recordRefutation u pr = .ok (id, store')) : store'.Consistent := by
  have hadds := (adds_of_recordRefutation h).1
  obtain ⟨href, rfl, heq⟩ := recordRefutation_eq_ok.mp h
  have hsize : store'.size = store.size + 1 := by
    rw [heq]
    exact Array.size_push _
  have hactive : store'.active = store.active :=
    (hadds.active hsize).trans (List.append_nil _)
  have hrefs : store'.refutations = store.refutations ++ [store.size] := by rw [heq]
  have hids : ∀ r, store'.unitIds r = store.unitIds r := fun r => by
    rw [hadds.unitIds, if_neg nofun]
  have hlt : ∀ i ∈ store.refutations, i < store.size := fun i hi => by
    obtain ⟨e, he, -⟩ := (hc.refuting i).mp hi
    exact lt_size_of_get? he
  refine ⟨hadds.listed hc.listed, hadds.ordered hc.listed hc.ordered, ?_, ?_, ?_, fun i => ?_, ?_,
    ?_⟩
  · rw [heq]
    exact hc.keyed
  · simpa only [hactive, hids] using hc.headed
  · rw [hrefs, List.pairwise_append]
    refine ⟨hc.increasing, List.pairwise_singleton _ _, fun i hi j hj => ?_⟩
    exact List.mem_singleton.mp hj ▸ hlt i hi
  · rw [hrefs, List.mem_append, List.mem_singleton, hc.refuting, hadds.entry]
    split
    · next hi => simp [hi, href]
    · next hi => rw [or_iff_left hi]
  · rw [hrefs, hactive]
    refine List.forall_mem_append.mpr ⟨hc.inactive, List.forall_mem_singleton.mpr fun hmem => ?_⟩
    obtain ⟨e, he, -⟩ := mem_active.mp hmem
    exact Nat.lt_irrefl _ (lt_size_of_get? he)
  · have hgeneration : store'.generation = store.generation + 1 := by rw [heq]
    rw [hgeneration, hactive, hrefs, hsize, List.length_append, List.length_singleton]
    have := hc.counted
    omega

theorem retire (hc : store.Consistent) (h : store.retire id = .ok store') :
    store'.Consistent := by
  have hretires := retires_of_retire hc.listed h
  obtain ⟨hsize, hrefs⟩ := frame_of_retire h
  have hleft := hretires.active hsize
  refine ⟨hretires.listed hc.listed, hretires.ordered hc.ordered, ?_, fun i hi => ?_,
    hrefs ▸ hc.increasing, fun i => ?_, fun i hi hmem => ?_, ?_⟩
  · obtain ⟨e, -, ⟨-, rfl⟩ | ⟨-, rfl⟩⟩ := retire_cases h
    · exact hc.keyed
    · dsimp only
      split
      · exact nodup_updateIds hc.keyed
      · exact hc.keyed
  · rw [hleft, List.mem_filter] at hi
    obtain ⟨r, hr⟩ := hc.headed i hi.1
    refine ⟨r, ?_⟩
    rw [hretires.unitIds]
    exact List.mem_filter.mpr ⟨hr, hi.2⟩
  · rw [hrefs, hc.refuting]
    constructor
    · rintro ⟨e₁, he₁, href⟩
      obtain ⟨e', he', hunit, -⟩ := hretires.evolves.kept i e₁ he₁
      exact ⟨e', he', hunit ▸ href⟩
    · rintro ⟨e', he', href⟩
      obtain ⟨e₁, he₁, hunit, -⟩ := hretires.exists_before he'
      exact ⟨e₁, he₁, hunit ▸ href⟩
  · rw [hleft] at hmem
    exact hc.inactive i (hrefs ▸ hi) (List.mem_of_mem_filter hmem)
  · have hcounted := hc.counted
    obtain ⟨e, he, ⟨-, rfl⟩ | ⟨hactive, heq⟩⟩ := retire_cases h
    · exact hcounted
    · have hgeneration : store'.generation = store.generation + 1 := by rw [heq]
      have hlength := hretires.length_active hsize (mem_active.mpr ⟨e, he, hactive⟩)
      rw [hgeneration, hrefs, hsize]
      omega

/-- What stands for a contradiction later is not active before. -/
theorem inactive_before (hc : store.Consistent) (hc' : store'.Consistent)
    (hev : store.Evolves store') (hid : id ∈ store'.refutations) : store.isActive id = false := by
  rw [← Bool.not_eq_true, isActive_iff]
  intro hactive
  obtain ⟨e, he, -⟩ := mem_active.mp hactive
  obtain ⟨e₁, he₁, href⟩ := (hc'.refuting id).mp hid
  obtain ⟨e', he', hunit, -⟩ := hev.kept id e he
  obtain rfl := Option.some.inj (he₁.symm.trans he')
  exact hc.inactive id ((hc.refuting id).mpr ⟨e, he, hunit ▸ href⟩) hactive

/-- The list of a relation's active units is found under that relation. -/
theorem unitIds_eq (hc : store.Consistent) {r : RelationId} {ids : List UnitId}
    (h : (r, ids) ∈ store.activeUnits) : store.unitIds r = ids := by
  obtain ⟨l₁, l₂, hsplit⟩ := List.append_of_mem h
  have hkeyed := hc.keyed
  have hnot : r ∉ l₁.map Prod.fst := fun hmem => by
    rw [hsplit, List.map_append, List.map_cons] at hkeyed
    exact (List.nodup_append.mp hkeyed).2.2 r hmem r List.mem_cons_self rfl
  have hlookup : store.activeUnits.lookup r = some ids := by
    refine List.lookup_eq_some_iff.mpr ⟨l₁, l₂, hsplit, fun entry hentry => ?_⟩
    exact bne_iff_ne.mpr fun heq => hnot (heq ▸ List.mem_map_of_mem hentry)
  rw [unitIds, hlookup, Option.getD_some]

/-- The lists by relation hold each active unit once. -/
theorem flatMap_activeUnits_perm (hc : store.Consistent) :
    (store.activeUnits.flatMap Prod.snd).Perm store.active := by
  have hnodup : (store.activeUnits.flatMap Prod.snd).Nodup := by
    refine List.nodup_flatMap.mpr ⟨fun entry hmem => ?_, ?_⟩
    · rw [← hc.unitIds_eq hmem]
      exact (hc.ordered entry.1).imp Nat.ne_of_lt
    · refine List.Pairwise.imp_of_mem ?_ (List.pairwise_map.mp hc.keyed)
      intro a b ha hb hne id hia hib
      rw [← hc.unitIds_eq ha] at hia
      rw [← hc.unitIds_eq hb] at hib
      obtain ⟨e, he, -, hr⟩ := (hc.listed _ id).mp hia
      obtain ⟨e', he', -, hs⟩ := (hc.listed _ id).mp hib
      obtain rfl := Option.some.inj (he.symm.trans he')
      exact hne (Option.some.inj (hr.symm.trans hs))
  refine (List.perm_ext_iff_of_nodup hnodup (nodup_active store)).mpr fun id => ?_
  · rw [List.mem_flatMap]
    constructor
    · rintro ⟨⟨r, ids⟩, hmem, hid⟩
      obtain ⟨e, he, ha, -⟩ := (hc.listed r id).mp (hc.unitIds_eq hmem ▸ hid)
      exact mem_active.mpr ⟨e, he, ha⟩
    · intro hid
      obtain ⟨r, hr⟩ := hc.headed id hid
      cases hlookup : store.activeUnits.lookup r with
      | none => simp [unitIds, hlookup] at hr
      | some ids =>
        obtain ⟨l₁, l₂, hsplit, -⟩ := List.lookup_eq_some_iff.mp hlookup
        refine ⟨(r, ids), hsplit ▸ List.mem_append_right _ List.mem_cons_self, ?_⟩
        simpa only [unitIds, hlookup, Option.getD_some] using hr

/-- The number of active units is the number of active entries. -/
theorem activeSize_eq (hc : store.Consistent) : store.activeSize = store.active.length := by
  have hsum (n : Nat) (table : List (RelationId × List UnitId)) :
      table.foldl (fun n entry => n + entry.2.length) n =
        n + (table.flatMap Prod.snd).length := by
    induction table generalizing n with
    | nil => rfl
    | cons entry table ih =>
      rw [List.foldl_cons, ih, List.flatMap_cons, List.length_append, Nat.add_assoc]
  calc store.activeSize
      = 0 + (store.activeUnits.flatMap Prod.snd).length := hsum 0 _
    _ = store.active.length := by
      rw [Nat.zero_add, hc.flatMap_activeUnits_perm.length_eq]

end Consistent

/-- However a store has come about, its parts agree. -/
theorem Built.consistent {relations : List Relation} (h : Built relations store) :
    store.Consistent := by
  induction h with
  | empty => exact .empty relations
  | insert _ hinsert ih => exact ih.insert hinsert
  | retire _ hretire ih => exact ih.retire hretire
  | recordRefutation _ hrecord ih => exact ih.recordRefutation hrecord

/-- A call that changes a store. -/
inductive Call where
  | insert (unit : UnitClause) (provenance : Provenance)
  | retire (id : UnitId)
  | recordRefutation (unit : UnitClause) (provenance : Provenance)

namespace Call

/-- What a call gives back, an identifier if it is to store a unit, and the store after it. -/
def perform : Call → Store → Except Error (Option UnitId × Store)
  | insert u pr, store => (store.insert u pr).map fun (id, after) => (some id, after)
  | retire id, store => (store.retire id).map fun after => (none, after)
  | recordRefutation u pr, store =>
    (store.recordRefutation u pr).map fun (id, after) => (some id, after)

/-- The ways in which a call can fail. -/
inductive Fails (store : Store) : Call → Error → Prop
  | insert {u : UnitClause} {pr : Provenance} (h : u.isRefutation = true) :
      Fails store (.insert u pr) (.internal (.notStorable (u.render store.relations)))
  | retire {id : UnitId} (h : store.size ≤ id) : Fails store (.retire id) (.internal (.noUnit id))
  | recordRefutation {u : UnitClause} {pr : Provenance} (h : u.isRefutation = false) :
      Fails store (.recordRefutation u pr)
        (.internal (.notRefutation (u.render store.relations)))

/-- What a call does that does not fail, and the identifier that it gives back. A unit that is to be
stored or recorded comes last, active or not, and a unit that is active can be retired; all other
entries and lists stay as they are. -/
inductive Does (store store' : Store) : Call → Option UnitId → Prop
  | insert {u : UnitClause} {pr : Provenance} (h : u.isRefutation = false)
      (hadds : store.Adds ⟨u, pr, true⟩ store')
      (hrefutations : store'.refutations = store.refutations)
      (hchanged : store'.generation = store.generation + 1) :
      Does store store' (.insert u pr) (some store.size)
  | retire {id : UnitId} {e : StoredUnit} (he : store.get? id = some e)
      (hretires : store.Retires id store') (hrefutations : store'.refutations = store.refutations)
      (hchanged : e.active = true → store'.generation = store.generation + 1)
      (hkept : e.active = false → store' = store) : Does store store' (.retire id) none
  | recordRefutation {u : UnitClause} {pr : Provenance} (h : u.isRefutation = true)
      (hadds : store.Adds ⟨u, pr, false⟩ store')
      (hrefutations : store'.refutations = store.refutations ++ [store.size])
      (hchanged : store'.generation = store.generation + 1) :
      Does store store' (.recordRefutation u pr) (some store.size)

/-- The identifier that a call gives back for a contradiction. -/
def recorded (store : Store) (c : Call) : List UnitId :=
  match c, c.perform store with
  | recordRefutation _ _, .ok (some id, _) => [id]
  | _, _ => []

theorem perform_eq_error {c : Call} : c.perform store = .error error ↔ c.Fails store error := by
  have hmap {α β : Type} {f : α → β} {x : Except Error α} :
      x.map f = .error error ↔ x = .error error := by cases x <;> simp [Except.map]
  cases c with
  | insert u pr =>
    rw [perform, hmap, insert_eq_error]
    constructor
    · rintro ⟨h, rfl⟩
      exact .insert h
    · intro hfails
      cases hfails with
      | insert h => exact ⟨h, rfl⟩
  | retire id =>
    rw [perform, hmap, retire_eq_error, get?, Array.getElem?_eq_none_iff]
    constructor
    · rintro ⟨h, rfl⟩
      exact .retire h
    · intro hfails
      cases hfails with
      | retire h => exact ⟨h, rfl⟩
  | recordRefutation u pr =>
    rw [perform, hmap, recordRefutation_eq_error]
    constructor
    · rintro ⟨h, rfl⟩
      exact .recordRefutation h
    · intro hfails
      cases hfails with
      | recordRefutation h => exact ⟨h, rfl⟩

/-- Beside units that are listed, a call that does not fail does what it should. -/
theorem does_of_perform {c : Call} {result : Option UnitId} (hl : store.Listed)
    (h : c.perform store = .ok (result, store')) : c.Does store store' result := by
  cases c with
  | insert u pr =>
    obtain ⟨⟨id, _⟩, hinsert, heq⟩ := Except.map_eq_ok.mp h
    obtain ⟨rfl, rfl⟩ := Prod.mk.inj heq
    obtain ⟨hadds, -⟩ := adds_of_insert hinsert
    obtain ⟨r, hhead, hpolarity, rfl, rfl⟩ := insert_eq_ok.mp hinsert
    exact .insert (by simp [UnitClause.isRefutation, hhead, hpolarity]) hadds rfl rfl
  | retire id =>
    obtain ⟨_, hretire, heq⟩ := Except.map_eq_ok.mp h
    obtain ⟨rfl, rfl⟩ := Prod.mk.inj heq
    obtain ⟨-, hrefutations⟩ := frame_of_retire hretire
    obtain ⟨e, he, hcase⟩ := retire_cases hretire
    refine .retire he (retires_of_retire hl hretire) hrefutations (fun hactive => ?_) fun hnot => ?_
    · obtain ⟨hnot, -⟩ | ⟨-, rfl⟩ := hcase
      · exact absurd hactive (Bool.eq_false_iff.mp hnot)
      · rfl
    · obtain ⟨-, heq⟩ | ⟨hactive, -⟩ := hcase
      · exact heq
      · exact absurd hactive (Bool.eq_false_iff.mp hnot)
  | recordRefutation u pr =>
    obtain ⟨⟨id, _⟩, hrecord, heq⟩ := Except.map_eq_ok.mp h
    obtain ⟨rfl, rfl⟩ := Prod.mk.inj heq
    obtain ⟨hadds, -⟩ := adds_of_recordRefutation hrecord
    obtain ⟨href, rfl, rfl⟩ := recordRefutation_eq_ok.mp hrecord
    exact .recordRefutation href hadds rfl rfl

end Call

/-- The store after a call, which is as before if the call fails. -/
def after (store : Store) (c : Call) : Store :=
  match c.perform store with
  | .ok (_, store') => store'
  | .error _ => store

/-- The store after calls, from an empty one on. -/
def afterAll (relations : List Relation) (calls : List Call) : Store :=
  calls.foldl after { relations }

/-- The identifiers that have been given back for contradictions, oldest first. -/
def recorded (store : Store) : List Call → List UnitId
  | [] => []
  | c :: rest => c.recorded store ++ (store.after c).recorded rest

/-- What a call that does not fail has done. -/
theorem after_cases (store : Store) (c : Call) :
    (∃ error, c.Fails store error ∧ store.after c = store) ∨
    (∃ u pr id, c = .insert u pr ∧ store.insert u pr = .ok (id, store.after c)) ∨
    (∃ id, c = .retire id ∧ store.retire id = .ok (store.after c)) ∨
    ∃ u pr id, c = .recordRefutation u pr ∧ c.recorded store = [id] ∧
      store.recordRefutation u pr = .ok (id, store.after c) := by
  cases hc : c.perform store with
  | error error => exact .inl ⟨error, Call.perform_eq_error.mp hc, by rw [after, hc]⟩
  | ok result =>
    have hafter : store.after c = result.2 := by rw [after, hc]
    rw [hafter]
    cases c with
    | insert u pr =>
      obtain ⟨⟨id, store'⟩, hinsert, rfl⟩ := Except.map_eq_ok.mp hc
      exact .inr (.inl ⟨u, pr, id, rfl, hinsert⟩)
    | retire id =>
      obtain ⟨store', hretire, rfl⟩ := Except.map_eq_ok.mp hc
      exact .inr (.inr (.inl ⟨id, rfl, hretire⟩))
    | recordRefutation u pr =>
      obtain ⟨⟨id, store'⟩, hrecord, rfl⟩ := Except.map_eq_ok.mp hc
      exact .inr (.inr (.inr ⟨u, pr, id, rfl, by simp only [Call.recorded, hc], hrecord⟩))

theorem Built.after {relations : List Relation} (h : Built relations store) (c : Call) :
    Built relations (store.after c) := by
  obtain ⟨_, -, hsame⟩ | ⟨u, pr, id, -, hinsert⟩ | ⟨id, -, hretire⟩ | ⟨u, pr, id, -, -, hrecord⟩ :=
    store.after_cases c
  · rwa [hsame]
  · exact h.insert hinsert
  · exact h.retire hretire
  · exact h.recordRefutation hrecord

theorem Built.foldl_after {relations : List Relation} (h : Built relations store)
    (calls : List Call) : Built relations (calls.foldl Store.after store) := by
  induction calls generalizing store with
  | nil => exact h
  | cons c rest ih => exact ih (h.after c)

theorem Listed.evolves_after (hl : store.Listed) (c : Call) : store.Evolves (store.after c) := by
  obtain ⟨_, -, hsame⟩ | ⟨u, pr, id, -, hinsert⟩ | ⟨id, -, hretire⟩ | ⟨u, pr, id, -, -, hrecord⟩ :=
    store.after_cases c
  · rw [hsame]
    exact .refl store
  · exact (adds_of_insert hinsert).1.evolves
  · exact (retires_of_retire hl hretire).evolves
  · exact (adds_of_recordRefutation hrecord).1.evolves

/-- Whatever the calls, a store keeps what is stored in it. -/
theorem Built.evolves_foldl_after {relations : List Relation} (h : Built relations store)
    (calls : List Call) : store.Evolves (calls.foldl Store.after store) := by
  induction calls generalizing store with
  | nil => exact .refl store
  | cons c rest ih => exact (h.spec.2.evolves_after c).trans (ih (h.after c))

/-- A call adds to the refutations what it records. -/
theorem refutations_after (store : Store) (c : Call) :
    (store.after c).refutations = store.refutations ++ c.recorded store := by
  obtain ⟨error, hfails, hsame⟩ | ⟨u, pr, id, rfl, hinsert⟩ | ⟨id, rfl, hretire⟩ |
      ⟨u, pr, id, -, hrecorded, hrecord⟩ := store.after_cases c
  · have hnone : c.recorded store = [] := by
      unfold Call.recorded
      rw [Call.perform_eq_error.mpr hfails]
      cases c <;> rfl
    rw [hsame, hnone, List.append_nil]
  · obtain ⟨r, -, -, -, heq⟩ := insert_eq_ok.mp hinsert
    rw [heq]
    exact (List.append_nil _).symm
  · obtain ⟨e, -, ⟨-, heq⟩ | ⟨-, heq⟩⟩ := retire_cases hretire
    all_goals
      rw [heq]
      exact (List.append_nil _).symm
  · obtain ⟨-, rfl, heq⟩ := recordRefutation_eq_ok.mp hrecord
    rw [heq, hrecorded]

theorem refutations_foldl_after (store : Store) (calls : List Call) :
    (calls.foldl after store).refutations = store.refutations ++ store.recorded calls := by
  induction calls generalizing store with
  | nil => exact (List.append_nil _).symm
  | cons c rest ih => rw [List.foldl_cons, ih, refutations_after, recorded, List.append_assoc]

/-- A run in which a change of the store fails is as before. -/
theorem changeStore_eq_error {α σ : Type} {f : Store → Except Error (α × Store)} {r : Run σ}
    (h : f r.units = .error error) :
    (Running.changeStore f).run.run r = (.error error, r) := by
  have hends : Ensures (Running.changeStore f) r (fun _ _ => False)
      fun e r' => e = error ∧ r' = r :=
    ensures_changeStore.mpr ⟨fun a units hok => (nomatch h.symm.trans hok),
      fun e herror => ⟨Except.error.inj (herror.symm.trans h), rfl⟩⟩
  obtain ⟨e, r', hrun, rfl, rfl⟩ := hends.exists_error fun _ _ => id
  exact hrun

/-- Whatever the calls on a store, its lists of active units by relation are exact and ordered, as
are their number and the list of refutations, which are never active. Later calls change neither a
stored unit nor its provenance and make no unit active again. A call fails exactly for the reasons
that are listed, and then everything stays as it is, also in a run that makes the call; a call that
does not fail adds the unit that it is given, or retires the one that it names, and leaves all else
as it is. -/
theorem calls_consistent (relations : List Relation) (calls more : List Call) :
    let store := afterAll relations calls
    let later := afterAll relations (calls ++ more)
    (∀ r, (store.unitIds r).Pairwise (· < ·) ∧ ∀ id, id ∈ store.unitIds r ↔
      ∃ e, store.get? id = some e ∧ e.active = true ∧ e.unit.head = some r) ∧
    store.activeSize = store.active.length ∧
    (store.refutations = recorded { relations } calls ∧ store.refutations.Pairwise (· < ·) ∧
      ∀ id ∈ later.refutations, store.isActive id = false ∧ later.isActive id = false) ∧
    (∀ id e, store.get? id = some e → ∃ e', later.get? id = some e' ∧ e'.unit = e.unit ∧
      e'.provenance = e.provenance ∧ (e.active = false → e'.active = false)) ∧
    (∀ c error, (c.perform store = .error error ↔ c.Fails store error) ∧
      (c.Fails store error → afterAll relations (calls ++ [c]) = store ∧
        ∀ (σ : Type) (r : Run σ), r.units = store →
          (Running.changeStore c.perform).run.run r = (.error error, r))) ∧
    ∀ c result store', c.perform store = .ok (result, store') →
      c.Does store store' result ∧ afterAll relations (calls ++ [c]) = store' := by
  intro store later
  have hbuilt : Built relations store := Built.empty.foldl_after calls
  have hlater : later = more.foldl after store := List.foldl_append
  have hevolves : store.Evolves later := hlater ▸ hbuilt.evolves_foldl_after more
  have hc := hbuilt.consistent
  have hc' : later.Consistent := (Built.empty.foldl_after (calls ++ more)).consistent
  have happend (c : Call) : afterAll relations (calls ++ [c]) = store.after c := List.foldl_append
  refine ⟨fun r => ⟨hc.ordered r, hc.listed r⟩, hc.activeSize_eq, ⟨?_, hc.increasing, ?_⟩, ?_, ?_,
    ?_⟩
  · exact refutations_foldl_after { relations } calls
  · exact fun id hid => ⟨hc.inactive_before hc' hevolves hid, hc'.inactive_before hc' (.refl _) hid⟩
  · intro id e he
    obtain ⟨e', he', hunit, hprovenance, hactive⟩ := hevolves.kept id e he
    refine ⟨e', he', hunit, hprovenance, fun hnot => ?_⟩
    rw [← Bool.not_eq_true] at hnot ⊢
    exact mt hactive hnot
  · intro c error
    refine ⟨Call.perform_eq_error, fun hfails => ⟨?_, fun σ r hr => ?_⟩⟩
    · rw [happend, after, Call.perform_eq_error.mpr hfails]
    · have hfailed : c.perform r.units = .error error := hr ▸ Call.perform_eq_error.mpr hfails
      exact changeStore_eq_error hfailed
  · intro c result store' hperform
    exact ⟨Call.does_of_perform hc.listed hperform, by rw [happend, after, hperform]⟩

end HornSaturation.Store
