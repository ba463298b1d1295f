import HornSaturation.Proofs.Refutation.Existence

/-!
# The order of a derivation is topological

A unit has an order exactly if it is traceable. The order then starts with the unit, lists each unit
that it was derived from once, and has every unit before all those that it was derived from. While
it is made every counter that is counted down is positive, because a unit that is still to be
released has not been queued.
-/

namespace HornSaturation

namespace Store

variable {store : Store} {root : UnitId} {order : List UnitId}

/-- An order that starts with the root and lists what the root was derived from, each unit once and
before all units that it was derived from. -/
structure IsTopological (store : Store) (root : UnitId) (order : List UnitId) : Prop where
  head : order.head? = some root
  nodup : order.Nodup
  lists : ∀ id, id ∈ order ↔ store.Reaches root id
  before : ∀ id c, id ∈ order → store.DerivesFrom id c → order.idxOf id < order.idxOf c

/-- In a scheduled list what a unit was derived from has a later position. -/
theorem Scheduled.idxOf_lt (hs : store.Scheduled order) (hn : order.Nodup) {id c : UnitId}
    (hid : id ∈ order) (h : store.DerivesFrom id c) :
    c ∈ order ∧ order.idxOf id < order.idxOf c := by
  induction order with
  | nil => cases hid
  | cons i order ih =>
    obtain ⟨hfirst, hrest⟩ := hs
    obtain ⟨hnot, hn⟩ := List.nodup_cons.mp hn
    by_cases hi : id = i
    · obtain ⟨e, he, hc⟩ := h
      have hmem : c ∈ order := hfirst e (hi ▸ he) c hc
      have hne : i ≠ c := (ne_of_mem_of_not_mem hmem hnot).symm
      refine ⟨List.mem_cons_of_mem i hmem, ?_⟩
      rw [hi, List.idxOf_cons_self, List.idxOf_cons_ne _ hne]
      exact Nat.succ_pos _
    · have hid : id ∈ order := (List.mem_cons.mp hid).resolve_left hi
      obtain ⟨hmem, hlt⟩ := ih hrest hn hid
      have hne : i ≠ c := (ne_of_mem_of_not_mem hmem hnot).symm
      refine ⟨List.mem_cons_of_mem i hmem, ?_⟩
      rw [List.idxOf_cons_ne _ (Ne.symm hi), List.idxOf_cons_ne _ hne]
      exact Nat.succ_lt_succ hlt

/-- In a topological order the way from a unit to what it was derived from leads to later positions.
-/
theorem IsTopological.idxOf_lt (ho : store.IsTopological root order) {id c : UnitId}
    (hid : id ∈ order) (h : Relation.TransGen store.DerivesFrom id c) :
    order.idxOf id < order.idxOf c := by
  induction h with
  | single hstep => exact ho.before _ _ hid hstep
  | @tail b c hway hstep ih =>
    have hb : b ∈ order := (ho.lists b).mpr (((ho.lists id).mp hid).trans hway.to_reflTransGen)
    exact ih.trans (ho.before b c hb hstep)

/-- An order that is made is topological, and then the root is traceable. -/
theorem isTopological_of_derivationOrder (h : store.derivationOrder root = .ok order) :
    store.IsTopological root order ∧ store.Traceable root := by
  obtain ⟨-, hscheduled⟩ := scheduled_of_derivationOrder h
  obtain ⟨g, hg, h⟩ := Except.bind_eq_ok.mp h
  obtain ⟨hcomplete, hroot, -⟩ := ProvenanceGraph.complete_of_ofRoot hg
  obtain ⟨hhead, hperm, -⟩ := ProvenanceGraph.order_spec hcomplete hroot h
  have hnodup : order.Nodup := hperm.nodup_iff.mpr hcomplete.nodup
  have htopological : store.IsTopological root order :=
    ⟨hhead, hnodup, fun id => hperm.mem_iff.trans (ProvenanceGraph.mem_units_iff hg),
      fun id c hid hstep => (hscheduled.idxOf_lt hnodup hid hstep).2⟩
  refine ⟨htopological, fun id hreach => ?_, fun id hreach hcycle => ?_⟩
  · exact ProvenanceGraph.exists_get?_of_mem_units hg
      ((ProvenanceGraph.mem_units_iff hg).mpr hreach)
  · exact Nat.lt_irrefl _ (htopological.idxOf_lt ((htopological.lists id).mpr hreach) hcycle)

end Store

namespace ProvenanceGraph

variable {store : Store} {g : ProvenanceGraph} {root : UnitId}

/-- Every unit of a list has a positive counter when it is counted down. -/
def CountsDown : (children : List UnitId) → (degrees : List (UnitId × Nat)) → Prop
  | [], _ => True
  | c :: rest, degrees =>
    (∃ d, degrees.lookup c = some (d + 1)) ∧ CountsDown rest (release [c] degrees).2

/-- In all steps of a schedule only positive counters are counted down, and the queue runs empty
within the given number of steps. -/
def NeverBelowZero (g : ProvenanceGraph) :
    Nat → (queue : List UnitId) → (degrees : List (UnitId × Nat)) → Prop
  | _, [], _ => True
  | 0, _ :: _, _ => False
  | n + 1, id :: queue, degrees =>
    CountsDown ((g.lookup id).getD []) degrees ∧
      NeverBelowZero g n (queue ++ (release ((g.lookup id).getD []) degrees).1)
        (release ((g.lookup id).getD []) degrees).2

theorem countsDown_table {cs : List UnitId} {f : UnitId → Nat} (hn : cs.Nodup)
    (hcs : ∀ c ∈ cs, c ∈ g.units ∧ 0 < f c) : CountsDown cs (g.table f) := by
  induction cs generalizing f with
  | nil => trivial
  | cons c cs ih =>
    obtain ⟨hc, hrest⟩ := List.forall_mem_cons.mp hcs
    obtain ⟨hnot, hn⟩ := List.nodup_cons.mp hn
    obtain ⟨d, hd⟩ := Nat.exists_eq_succ_of_ne_zero (Nat.ne_of_gt hc.2)
    refine ⟨⟨d, by rw [lookup_table hc.1, hd]⟩, ?_⟩
    rw [release_table (List.nodup_singleton c) (List.forall_mem_singleton.mpr hc)]
    dsimp only
    refine ih hn fun i hi => ⟨(hrest i hi).1, ?_⟩
    have hne : i ∉ [c] := fun hmem => hnot (List.mem_singleton.mp hmem ▸ hi)
    rw [if_neg hne]
    exact (hrest i hi).2

/-- No more units have been listed or queued than there are. -/
theorem Ready.length_le {seen queue : List UnitId} (hr : g.Ready seen queue)
    (hseen : ∀ id ∈ seen, id ∈ g.units) : seen.length + queue.length ≤ g.length := by
  have hle := (List.subperm_of_subset hr.nodup (List.append_subset.mpr ⟨hseen, hr.known⟩)).length_le
  rwa [units, List.length_append, List.length_map] at hle

/-- From a queue of the units that wait for no other unit only positive counters are counted down,
and the steps suffice if there is one for each unit that is not listed yet. -/
theorem Ready.neverBelowZero (hg : g.Complete) {n : Nat} {seen queue : List UnitId}
    (hr : g.Ready seen queue) (hseen : ∀ id ∈ seen, id ∈ g.units)
    (hn : g.length ≤ n + seen.length) : g.NeverBelowZero n queue (g.table (g.waiting seen)) := by
  induction n generalizing seen queue with
  | zero =>
    have hle := hr.length_le hseen
    obtain rfl : queue = [] := List.length_eq_zero_iff.mp (by omega)
    trivial
  | succ n ih =>
    cases queue with
    | nil => trivial
    | cons id queue =>
      have hid := hr.known id List.mem_cons_self
      have hentry := mem_of_mem_units hid
      obtain ⟨hcn, hchildren⟩ := hg.children id _ hentry
      obtain ⟨ready, hrelease, hnext, hnew⟩ := hr.release hg hentry
      -- A child with counter zero would have been queued, but no child of the first unit is.
      have hpos : ∀ c ∈ (g.lookup id).getD [], c ∈ g.units ∧ 0 < g.waiting seen c := fun c hc =>
        ⟨hchildren c hc, Nat.pos_of_ne_zero fun hzero =>
          hnew c hc (hr.queued c (hchildren c hc) hzero)⟩
      refine ⟨countsDown_table hcn hpos, ?_⟩
      rw [hrelease]
      refine ih hnext (List.forall_mem_append.mpr ⟨hseen, List.forall_mem_singleton.mpr hid⟩) ?_
      rw [List.length_append, List.length_singleton]
      omega

/-- An order that is not refused for its roots is made from positive counters. -/
theorem neverBelowZero_of_order (hg : g.Complete) (hroot : root ∈ g.units)
    (h : ∀ roots, g.order root ≠ .error (.internal (.manyRoots root roots))) :
    g.NeverBelowZero g.length [root] (g.map fun (id, _) => (id, g.degree id)) := by
  rw [degrees_eq_table]
  refine (ready_root hroot (waits_for_none_of_roots ?_)).neverBelowZero hg nofun (Nat.le_refl _)
  by_contra hroots
  have hrefused : ∃ roots, g.order root = .error (.internal (.manyRoots root roots)) := by
    unfold order
    dsimp only
    rw [degrees_eq_table]
    exact ⟨_, if_pos hroots⟩
  obtain ⟨roots, hroots⟩ := hrefused
  exact h roots hroots

end ProvenanceGraph

/-- An order is made exactly if everything that the root was derived from is stored and nothing was
derived from itself; it is topological. While it is made no counter falls below zero, and there are
as many steps as it takes. -/
theorem Store.derivationOrder_exact (store : Store) (root : UnitId) :
    ((∃ order, store.derivationOrder root = .ok order) ↔ store.Traceable root) ∧
    (∀ order, store.derivationOrder root = .ok order → store.IsTopological root order) ∧
    ∀ g, ProvenanceGraph.ofRoot store root = .ok g →
      (∀ roots, g.order root ≠ .error (.internal (.manyRoots root roots))) →
      g.NeverBelowZero g.length [root] (g.map fun (id, _) => (id, g.degree id)) := by
  refine ⟨⟨fun ⟨order, h⟩ => (isTopological_of_derivationOrder h).2,
    Traceable.exists_derivationOrder⟩, fun order h => (isTopological_of_derivationOrder h).1,
    fun g hg horder => ?_⟩
  obtain ⟨hcomplete, hroot, -⟩ := ProvenanceGraph.complete_of_ofRoot hg
  exact ProvenanceGraph.neverBelowZero_of_order hcomplete hroot horder

/-- A store in which two units share a fact and one names it twice; the last one names both, and the
first of them twice. -/
def Store.sharedFact : Store where
  relations := []
  entries := #[
    ⟨⟨some 0, .positive, 0, .bool true⟩, .fact 0, true⟩,
    ⟨⟨some 0, .positive, 0, .bool true⟩, .derived 1 [0, 0], true⟩,
    ⟨⟨some 0, .positive, 0, .bool true⟩, .derived 2 [0], true⟩,
    ⟨⟨none, .positive, 0, .bool true⟩, .derived 3 [1, 2, 1], false⟩]

theorem Store.isTopological_sharedFact :
    Store.sharedFact.derivationOrder 3 = .ok [3, 1, 2, 0] ∧ Store.sharedFact.Traceable 3 ∧
      Store.sharedFact.IsTopological 3 [3, 1, 2, 0] ∧
      ProvenanceGraph.NeverBelowZero [(3, [1, 2]), (2, [0]), (0, []), (1, [0])] 4 [3]
        [(3, 0), (2, 1), (0, 2), (1, 1)] := by
  have hgraph : ProvenanceGraph.ofRoot Store.sharedFact 3 =
      .ok [(3, [1, 2]), (2, [0]), (0, []), (1, [0])] := rfl
  have hmade : ProvenanceGraph.order [(3, [1, 2]), (2, [0]), (0, []), (1, [0])] 3 =
      .ok [3, 1, 2, 0] := (if_neg (not_not.mpr (List.mergeSort_singleton 3))).trans rfl
  have horder : Store.sharedFact.derivationOrder 3 = .ok [3, 1, 2, 0] :=
    Except.bind_eq_ok.mpr ⟨_, hgraph, hmade⟩
  obtain ⟨htraceable, htopological, hcounters⟩ := Store.derivationOrder_exact Store.sharedFact 3
  refine ⟨horder, htraceable.mp ⟨_, horder⟩, htopological _ horder, hcounters _ hgraph ?_⟩
  intro roots h
  rw [hmade] at h
  cases h

end HornSaturation
