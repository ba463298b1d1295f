import HornSaturation.Proofs.Refutation.Order
import Mathlib.Data.Set.Finite.Basic
import Mathlib.Logic.Relation

/-!
# Which units have an order

The units that a unit was derived from, directly or not, can be listed in order if all of them are
stored and none was derived from itself: the exploration then meets stored units only, the root
alone waits for no other unit, and a unit that is never listed would be a child of another such
unit, and so on without an end. In a sound store units were derived from units that were stored
before them, so every stored unit has an order.
-/

namespace HornSaturation

namespace Store

/-- A stored unit was derived from another one directly. -/
def DerivesFrom (store : Store) (id c : UnitId) : Prop :=
  ∃ e, store.get? id = some e ∧ c ∈ e.provenance.electrons

/-- A unit is the root, or the root was derived from it, directly or not. -/
def Reaches (store : Store) (root id : UnitId) : Prop :=
  Relation.ReflTransGen store.DerivesFrom root id

/-- The root and all units that it was derived from are stored, and none of them was derived from
itself. -/
structure Traceable (store : Store) (root : UnitId) : Prop where
  stored : ∀ id, store.Reaches root id → ∃ e, store.get? id = some e
  acyclic : ∀ id, store.Reaches root id → ¬ Relation.TransGen store.DerivesFrom id id

end Store

namespace ProvenanceGraph

variable {store : Store} {g : ProvenanceGraph} {root : UnitId}

/-- A unit is listed in a graph with another one as its child. -/
def HasChild (g : ProvenanceGraph) (id c : UnitId) : Prop := ∃ cs, (id, cs) ∈ g ∧ c ∈ cs

theorem HasChild.mem_units {id c : UnitId} (h : g.HasChild id c) : id ∈ g.units := by
  obtain ⟨cs, hentry, -⟩ := h
  exact List.mem_map_of_mem (f := Prod.fst) hentry

/-- The exploration does not fail where all units that it meets are stored. -/
theorem exists_explore (n : Nat) {stack visited : List UnitId}
    (h : ∀ id ∈ stack, ∀ c, store.Reaches id c → ∃ e, store.get? c = some e) :
    ∃ g, explore store n stack visited = .ok g := by
  induction n generalizing stack visited with
  | zero => cases stack <;> exact ⟨[], rfl⟩
  | succ n ih =>
    cases stack with
    | nil => exact ⟨[], rfl⟩
    | cons id stack =>
      obtain ⟨hid, hrest⟩ := List.forall_mem_cons.mp h
      obtain ⟨e, he⟩ := hid id .refl
      set children := e.provenance.electrons.eraseDups with hchildren
      set fresh := children.filter fun c => !visited.contains c with hfresh
      have hnext : ∀ c ∈ fresh.reverse ++ stack, ∀ d, store.Reaches c d →
          ∃ e, store.get? d = some e := by
        intro c hc
        rcases List.mem_append.mp hc with hc | hc
        · have hmem : c ∈ e.provenance.electrons :=
            List.mem_eraseDups.mp (List.mem_of_mem_filter (List.mem_reverse.mp hc))
          exact fun d hd => hid d (.head ⟨e, he, hmem⟩ hd)
        · exact hrest c hc
      have hexplored : ∃ g, explore store n (fresh.reverse ++ stack) (fresh ++ visited) = .ok g :=
        ih hnext
      obtain ⟨g, hg⟩ := hexplored
      refine ⟨(id, children) :: g, ?_⟩
      rw [explore, he]
      simp only [← hchildren, ← hfresh, hg]
      rfl

/-- Every explored unit was stacked, or a stacked unit was derived from it. -/
theorem reaches_of_explore {n : Nat} {stack visited : List UnitId}
    (h : explore store n stack visited = .ok g) {c : UnitId} (hc : c ∈ g.units) :
    ∃ id ∈ stack, store.Reaches id c := by
  induction n generalizing stack visited g with
  | zero =>
    obtain rfl : g = [] := by cases stack <;> exact (Except.ok.inj h).symm
    cases hc
  | succ n ih =>
    cases stack with
    | nil =>
      obtain rfl := Except.ok.inj h
      cases hc
    | cons id stack =>
      unfold explore at h
      split at h
      · cases h
      next e he =>
      obtain ⟨g', hg', h⟩ := Except.bind_eq_ok.mp h
      obtain rfl := Except.ok.inj h
      rcases List.mem_cons.mp hc with rfl | hc
      · exact ⟨_, List.mem_cons_self, .refl⟩
      obtain ⟨i, hi, hreach⟩ := ih hg' hc
      rcases List.mem_append.mp hi with hi | hi
      · have hmem : i ∈ e.provenance.electrons :=
          List.mem_eraseDups.mp (List.mem_of_mem_filter (List.mem_reverse.mp hi))
        exact ⟨id, List.mem_cons_self, .head ⟨e, he, hmem⟩ hreach⟩
      · exact ⟨i, List.mem_cons_of_mem id hi, hreach⟩

section OfRoot

variable (h : ofRoot store root = .ok g)

include h

/-- The children of a listed unit are the units that it was derived from directly. -/
theorem hasChild_iff {id c : UnitId} : g.HasChild id c ↔ id ∈ g.units ∧ store.DerivesFrom id c := by
  obtain ⟨-, -, hlisted⟩ := complete_of_ofRoot h
  constructor
  · rintro ⟨cs, hentry, hc⟩
    obtain ⟨e, he, rfl⟩ := hlisted id cs hentry
    exact ⟨List.mem_map_of_mem (f := Prod.fst) hentry, e, he, List.mem_eraseDups.mp hc⟩
  · rintro ⟨hid, e, he, hc⟩
    have hentry := mem_of_mem_units hid
    obtain ⟨e', he', hcs⟩ := hlisted id _ hentry
    obtain rfl := Option.some.inj (he.symm.trans he')
    exact ⟨_, hentry, hcs ▸ List.mem_eraseDups.mpr hc⟩

/-- The graph of a unit lists what the unit was derived from, directly or not. -/
theorem mem_units_iff {id : UnitId} : id ∈ g.units ↔ store.Reaches root id := by
  obtain ⟨hcomplete, hroot, -⟩ := complete_of_ofRoot h
  constructor
  · intro hid
    obtain ⟨i, hi, hreach⟩ := reaches_of_explore h hid
    exact List.mem_singleton.mp hi ▸ hreach
  · intro hreach
    induction hreach with
    | refl => exact hroot
    | tail _ hstep ih =>
      obtain ⟨cs, hentry, hc⟩ := (hasChild_iff h).mpr ⟨ih, hstep⟩
      exact (hcomplete.children _ cs hentry).2 _ hc

/-- Every listed unit is stored. -/
theorem exists_get?_of_mem_units {id : UnitId} (hid : id ∈ g.units) :
    ∃ e, store.get? id = some e := by
  obtain ⟨-, -, hlisted⟩ := complete_of_ofRoot h
  obtain ⟨e, he, -⟩ := hlisted id _ (mem_of_mem_units hid)
  exact ⟨e, he⟩

/-- A way along children is a way along what was derived from what. -/
theorem derivesFrom_of_hasChild {id c : UnitId} (hway : Relation.TransGen g.HasChild id c) :
    Relation.TransGen store.DerivesFrom id c := by
  induction hway with
  | single hstep => exact .single ((hasChild_iff h).mp hstep).2
  | tail _ hstep ih => exact ih.tail ((hasChild_iff h).mp hstep).2

/-- The graph of a traceable unit has no cycle. -/
theorem acyclic_of_traceable (ht : store.Traceable root) (id : UnitId) :
    ¬ Relation.TransGen g.HasChild id id := by
  intro hcycle
  obtain ⟨c, hstep, -⟩ := Relation.TransGen.head'_iff.mp hcycle
  exact ht.acyclic id ((mem_units_iff h).mp hstep.mem_units) (derivesFrom_of_hasChild h hcycle)

end OfRoot

/-- A unit that waits for another is a child of one that has not been listed. -/
theorem exists_parent_of_waiting {seen : List UnitId} {c : UnitId} (h : g.waiting seen c ≠ 0) :
    ∃ id, g.HasChild id c ∧ id ∉ seen := by
  obtain ⟨⟨id, cs⟩, hentry, hwaits⟩ := List.countP_pos_iff.mp (Nat.pos_of_ne_zero h)
  simp only [Bool.and_eq_true, Bool.not_eq_true', List.contains_eq_mem, decide_eq_false_iff_not,
    decide_eq_true_eq] at hwaits
  exact ⟨id, ⟨cs, hentry, hwaits.2⟩, hwaits.1⟩

/-- A child of a unit waits for that unit at the start. -/
theorem waiting_ne_zero_of_hasChild {id c : UnitId} (h : g.HasChild id c) : g.waiting [] c ≠ 0 := by
  obtain ⟨cs, hentry, hc⟩ := h
  intro hzero
  have hnone := List.countP_eq_zero.mp hzero (id, cs) hentry
  simp [hc] at hnone

section Acyclic

variable (hacyclic : ∀ id, ¬ Relation.TransGen g.HasChild id id)

include hacyclic

/-- When the queue has run empty all units have been listed. -/
theorem mem_seen_of_ready_nil {seen : List UnitId} (hr : g.Ready seen []) {c : UnitId}
    (hc : c ∈ g.units) : c ∈ seen := by
  -- Without cycles the finitely many units are well-founded under "is above"; a unit that is left
  -- waits for one above it that is left, too.
  have hfounded : WellFounded fun a b : { c // c ∈ g.units } =>
      Relation.TransGen g.HasChild a.1 b.1 := by
    have : IsTrans { c // c ∈ g.units } fun a b => Relation.TransGen g.HasChild a.1 b.1 :=
      ⟨fun _ _ _ => Relation.TransGen.trans⟩
    have : Std.Irrefl fun a b : { c // c ∈ g.units } => Relation.TransGen g.HasChild a.1 b.1 :=
      ⟨fun a => hacyclic a.1⟩
    have : Finite { c // c ∈ g.units } := g.units.finite_toSet.to_subtype
    exact Finite.wellFounded_of_trans_of_irrefl _
  refine hfounded.induction (C := fun a => a.1 ∈ seen) ⟨c, hc⟩ fun ⟨b, hb⟩ ih => ?_
  by_contra hleft
  have hwaits : g.waiting seen b ≠ 0 := fun hzero => by
    have hqueued := hr.queued b hb hzero
    rw [List.append_nil] at hqueued
    exact hleft hqueued
  obtain ⟨id, hchild, hunseen⟩ := exists_parent_of_waiting hwaits
  exact hunseen (ih ⟨id, hchild.mem_units⟩ (.single hchild))

/-- The schedule lists all units. -/
theorem length_schedule (hg : g.Complete) {n : Nat} {seen queue : List UnitId}
    (hr : g.Ready seen queue) (hn : n + seen.length = g.length) (hseen : ∀ id ∈ seen, id ∈ g.units) :
    seen.length + (g.schedule n queue (g.table (g.waiting seen))).length = g.length := by
  induction n generalizing seen queue with
  | zero =>
    have hempty : g.schedule 0 queue (g.table (g.waiting seen)) = [] := by cases queue <;> rfl
    rw [hempty, List.length_nil]
    omega
  | succ n ih =>
    cases queue with
    | nil =>
      have hsub : g.units ⊆ seen := fun c hc => mem_seen_of_ready_nil hacyclic hr hc
      have hle := (List.subperm_of_subset hg.nodup hsub).length_le
      rw [units, List.length_map] at hle
      omega
    | cons id queue =>
      have hid := hr.known id List.mem_cons_self
      obtain ⟨ready, hrelease, hnext, -⟩ := hr.release hg (mem_of_mem_units hid)
      have hseen' : ∀ i ∈ seen ++ [id], i ∈ g.units := fun i hi =>
        (List.mem_append.mp hi).elim (hseen i) fun hi => List.mem_singleton.mp hi ▸ hid
      have hlen : (seen ++ [id]).length = seen.length + 1 := by simp
      have ih := ih hnext (by omega) hseen'
      rw [schedule, hrelease]
      dsimp only
      rw [List.length_cons]
      omega

variable (hroot : root ∈ g.units)
  (habove : ∀ c ∈ g.units, Relation.ReflTransGen g.HasChild root c)

include hroot habove

/-- The root alone waits for no other unit. -/
theorem waits_for_none_iff (c : UnitId) : c ∈ g.units ∧ g.waiting [] c = 0 ↔ c = root := by
  constructor
  · rintro ⟨hc, hzero⟩
    rcases Relation.ReflTransGen.cases_tail (habove c hc) with heq | ⟨id, -, hchild⟩
    · exact heq
    · exact absurd hzero (waiting_ne_zero_of_hasChild hchild)
  · rintro rfl
    refine ⟨hroot, not_not.mp fun hwaits => ?_⟩
    obtain ⟨id, hchild, -⟩ := exists_parent_of_waiting hwaits
    exact hacyclic c (Relation.TransGen.tail' (habove id hchild.mem_units) hchild)

theorem roots_eq (hg : g.Complete) :
    (((g.table (g.waiting [])).filter (·.2 = 0)).map (·.1)).mergeSort (· ≤ ·) = [root] := by
  have hunits : g.units = (g.table (g.waiting [])).map (·.1) := by
    rw [table, List.map_map]
    rfl
  have hsub : (((g.table (g.waiting [])).filter (·.2 = 0)).map (·.1)).Sublist g.units := by
    rw [hunits]
    exact List.filter_sublist.map _
  have hperm := (List.perm_ext_iff_of_nodup (hg.nodup.sublist hsub)
    (List.nodup_singleton root)).mpr fun c => by
      rw [mem_roots, waits_for_none_iff hacyclic hroot habove, List.mem_singleton]
  exact List.perm_singleton.mp ((List.mergeSort_perm _ _).trans hperm)

/-- The units of a graph without cycles can be listed in order. -/
theorem exists_order (hg : g.Complete) : ∃ order, g.order root = .ok order := by
  have hready := ready_root hroot (waits_for_none_iff hacyclic hroot habove)
  have hlength : (g.schedule g.length [root] (g.table (g.waiting []))).length = g.length := by
    simpa using length_schedule hacyclic hg hready (Nat.add_zero _) (by simp)
  refine ⟨g.schedule g.length [root] (g.table (g.waiting [])), ?_⟩
  unfold order
  dsimp only
  rw [degrees_eq_table, if_neg (not_not.mpr (roots_eq hacyclic hroot habove hg)), if_pos hlength]

end Acyclic

end ProvenanceGraph

namespace Store

variable {store : Store} {root : UnitId}

/-- The units that a traceable unit was derived from can be listed in order. -/
theorem Traceable.exists_derivationOrder (ht : store.Traceable root) :
    ∃ order, store.derivationOrder root = .ok order := by
  have hexplored : ∃ g, ProvenanceGraph.ofRoot store root = .ok g :=
    ProvenanceGraph.exists_explore _ (List.forall_mem_singleton.mpr ht.stored)
  obtain ⟨g, hg⟩ := hexplored
  obtain ⟨hcomplete, hroot, -⟩ := ProvenanceGraph.complete_of_ofRoot hg
  have habove : ∀ c ∈ g.units, Relation.ReflTransGen g.HasChild root c := fun c hc => by
    have hreach := (ProvenanceGraph.mem_units_iff hg).mp hc
    clear hc
    induction hreach with
    | refl => exact .refl
    | tail hreach hstep ih =>
      exact ih.tail ((ProvenanceGraph.hasChild_iff hg).mpr
        ⟨(ProvenanceGraph.mem_units_iff hg).mpr hreach, hstep⟩)
  obtain ⟨order, horder⟩ := ProvenanceGraph.exists_order
    (ProvenanceGraph.acyclic_of_traceable hg ht) hroot habove hcomplete
  refine ⟨order, ?_⟩
  rw [derivationOrder, hg]
  exact horder

/-- A stored unit is traceable if all units were derived from units that were stored before them. -/
theorem traceable_of_before
    (h : ∀ id c, store.DerivesFrom id c → c < id ∧ ∃ e, store.get? c = some e)
    (hroot : ∃ e, store.get? root = some e) : store.Traceable root := by
  refine ⟨fun id hreach => ?_, fun id _ hcycle => ?_⟩
  · rcases Relation.ReflTransGen.cases_tail hreach with rfl | ⟨_, -, hstep⟩
    · exact hroot
    · exact (h _ _ hstep).2
  · have hfalls : ∀ {a b : UnitId}, Relation.TransGen store.DerivesFrom a b → b < a := by
      intro a b hway
      induction hway with
      | single hstep => exact (h _ _ hstep).1
      | tail _ hstep ih => exact (h _ _ hstep).1.trans ih
    exact Nat.lt_irrefl id (hfalls hcycle)

/-- What a stored unit was derived from was stored before it. -/
theorem Sound.stored_before {p : NormalizedProblem} (hs : store.Sound p) {id c : UnitId}
    (h : store.DerivesFrom id c) : c < id ∧ ∃ e, store.get? c = some e := by
  obtain ⟨e, he, hc⟩ := h
  cases hprov : e.provenance with
  | fact clause =>
    rw [hprov] at hc
    cases hc
  | derived nucleus electrons =>
    rw [hprov] at hc
    obtain ⟨_, -, -, helectrons, -⟩ := hs.derivedFrom he hprov
    exact stored_before_of_forall₂ helectrons c hc

/-- In a sound store every stored unit is traceable. -/
theorem Sound.traceable {p : NormalizedProblem} (hs : store.Sound p) {e : StoredUnit}
    (he : store.get? root = some e) : store.Traceable root :=
  traceable_of_before (fun _ _ => hs.stored_before) ⟨e, he⟩

/-- The units that a stored unit was derived from can be listed in order. -/
theorem Sound.exists_derivationOrder {p : NormalizedProblem} (hs : store.Sound p) {e : StoredUnit}
    (he : store.get? root = some e) : ∃ order, store.derivationOrder root = .ok order :=
  (hs.traceable he).exists_derivationOrder

end Store

end HornSaturation
