import HornSaturation.Proofs.Data.Lists
import HornSaturation.Proofs.Data.Results
import HornSaturation.Proofs.Unit.Store
import HornSaturation.Refutation.Provenance
import Mathlib.Data.List.Perm.Subperm

/-!
# Units before what they were derived from

The graph of a unit lists every unit that it was derived from exactly once, because every step of
the exploration visits another stored unit. An order that lists all units of the graph, each as soon
as no unit that is left was derived from it, has every unit before those that it was derived from.
-/

namespace HornSaturation

/-- Every unit of a list comes before the units that it was derived from. -/
def Store.Scheduled (store : Store) : List UnitId → Prop
  | [] => True
  | id :: rest =>
    (∀ e, store.get? id = some e → ∀ c ∈ e.provenance.electrons, c ∈ rest) ∧ Scheduled store rest

namespace ProvenanceGraph

variable {store : Store} {g : ProvenanceGraph}

/-- The units of a graph. -/
def units (g : ProvenanceGraph) : List UnitId := g.map (·.1)

/-- A graph of what stacked units were derived from, apart from units that were explored before. -/
structure Explored (store : Store) (done stack : List UnitId) (g : ProvenanceGraph) : Prop where
  listed : ∀ id cs, (id, cs) ∈ g →
    ∃ e, store.get? id = some e ∧ cs = e.provenance.electrons.eraseDups
  nodup : g.units.Nodup
  fresh : ∀ id ∈ g.units, id ∉ done
  stack : ∀ id ∈ stack, id ∈ g.units
  children : ∀ id cs, (id, cs) ∈ g → ∀ c ∈ cs, c ∈ done ∨ c ∈ g.units

/-- Different stored units are no more than there are. -/
private theorem length_le_size {ids : List UnitId} (hn : ids.Nodup)
    (h : ∀ id ∈ ids, id < store.size) : ids.length ≤ store.size := by
  have hsub : ids ⊆ List.range store.size := fun id hid => List.mem_range.mpr (h id hid)
  simpa using (List.subperm_of_subset hn hsub).length_le

/-- A unit is explored together with those of its children that have not been visited before. -/
private theorem Explored.cons {id : UnitId} {e : StoredUnit} {done stack fresh : List UnitId}
    (h : Explored store (id :: done) (fresh.reverse ++ stack) g) (he : store.get? id = some e)
    (hid : id ∉ done)
    (hchildren : ∀ c ∈ e.provenance.electrons.eraseDups, c ∈ id :: stack ∨ c ∈ done ∨ c ∈ fresh) :
    Explored store done (id :: stack) ((id, e.provenance.electrons.eraseDups) :: g) := by
  have hrest (c : UnitId) (hc : c ∈ fresh.reverse ++ stack) : c ∈ id :: g.units :=
    List.mem_cons_of_mem id (h.stack c hc)
  refine ⟨?_, ?_, ?_, ?_, ?_⟩
  · intro id' cs hentry
    rcases List.mem_cons.mp hentry with heq | hentry
    · obtain ⟨rfl, rfl⟩ := Prod.mk.inj heq
      exact ⟨e, he, rfl⟩
    · exact h.listed id' cs hentry
  · exact List.nodup_cons.mpr ⟨fun hmem => h.fresh id hmem List.mem_cons_self, h.nodup⟩
  · exact List.forall_mem_cons.mpr
      ⟨hid, fun i hi hdone => h.fresh i hi (List.mem_cons_of_mem id hdone)⟩
  · exact List.forall_mem_cons.mpr
      ⟨List.mem_cons_self, fun i hi => hrest i (List.mem_append_right _ hi)⟩
  · intro id' cs hentry c hc
    rcases List.mem_cons.mp hentry with heq | hentry
    · obtain ⟨-, rfl⟩ := Prod.mk.inj heq
      rcases hchildren c hc with hstack | hdone | hfresh
      · rcases List.mem_cons.mp hstack with rfl | hstack
        · exact .inr List.mem_cons_self
        · exact .inr (hrest c (List.mem_append_right _ hstack))
      · exact .inl hdone
      · exact .inr (hrest c (List.mem_append_left _ (List.mem_reverse.mpr hfresh)))
    · rcases h.children id' cs hentry c hc with hdone | hlisted
      · rcases List.mem_cons.mp hdone with rfl | hdone
        · exact .inr List.mem_cons_self
        · exact .inl hdone
      · exact .inr (List.mem_cons_of_mem id hlisted)

/-- The exploration is complete: it does not run out of steps. -/
theorem explored_of_explore {n : Nat} {stack visited done : List UnitId}
    (hv : ∀ c, c ∈ visited ↔ c ∈ stack ∨ c ∈ done) (hn : (stack ++ done).Nodup)
    (hd : ∀ id ∈ done, id < store.size) (hfuel : store.size < n + done.length)
    (h : explore store n stack visited = .ok g) : Explored store done stack g := by
  -- Every step explores another stored unit, so the steps that are left outlast the stack.
  induction n generalizing stack visited done g with
  | zero =>
    cases stack with
    | nil =>
      obtain rfl := Except.ok.inj h
      exact ⟨nofun, .nil, nofun, nofun, nofun⟩
    | cons id stack =>
      have hle := length_le_size (List.nodup_append'.mp hn).2.1 hd
      omega
  | succ n ih =>
    cases stack with
    | nil =>
      obtain rfl := Except.ok.inj h
      exact ⟨nofun, .nil, nofun, nofun, nofun⟩
    | cons id stack =>
      unfold explore at h
      split at h
      · cases h
      next e he =>
      obtain ⟨g', hg', h⟩ := Except.bind_eq_ok.mp h
      obtain rfl := Except.ok.inj h
      set children := e.provenance.electrons.eraseDups
      set fresh := children.filter fun c => !visited.contains c with hfresh
      have hmem (c : UnitId) : c ∈ fresh ↔ c ∈ children ∧ c ∉ visited := by simp [hfresh]
      have hfn : fresh.Nodup := (List.nodup_eraseDups _).filter _
      have hexp : Explored store (id :: done) (fresh.reverse ++ stack) g' := by
        refine ih (fun c => ?_) ?_ ?_ ?_ hg'
        · rw [List.mem_append, hv, List.mem_cons, List.mem_append, List.mem_reverse, List.mem_cons]
          tauto
        · have hperm :
              (fresh.reverse ++ stack ++ id :: done).Perm (fresh ++ (id :: stack ++ done)) := by
            rw [List.append_assoc]
            exact fresh.reverse_perm.append List.perm_middle
          refine hperm.nodup_iff.mpr (List.nodup_append'.mpr ⟨hfn, hn, fun c hc hold => ?_⟩)
          exact ((hmem c).mp hc).2 ((hv c).mpr (List.mem_append.mp hold))
        · exact List.forall_mem_cons.mpr ⟨Store.lt_size_of_get? he, hd⟩
        · rw [List.length_cons]
          omega
      refine hexp.cons he ((List.nodup_append'.mp hn).2.2 List.mem_cons_self) fun c hc => ?_
      by_cases hcv : c ∈ visited
      · exact ((hv c).mp hcv).imp_right .inl
      · exact .inr (.inr ((hmem c).mpr ⟨hc, hcv⟩))

/-- Graphs in which every child is listed. -/
structure Complete (g : ProvenanceGraph) : Prop where
  nodup : g.units.Nodup
  children : ∀ id cs, (id, cs) ∈ g → cs.Nodup ∧ ∀ c ∈ cs, c ∈ g.units

theorem complete_of_ofRoot {root : UnitId} (h : ofRoot store root = .ok g) :
    g.Complete ∧ root ∈ g.units ∧ ∀ id cs, (id, cs) ∈ g →
      ∃ e, store.get? id = some e ∧ cs = e.provenance.electrons.eraseDups := by
  have hexp : Explored store [] [root] g :=
    explored_of_explore (by simp) (by simp) nofun (by simp) h
  refine ⟨⟨hexp.nodup, fun id cs hentry => ⟨?_, fun c hc => ?_⟩⟩, hexp.stack root (by simp),
    hexp.listed⟩
  · obtain ⟨e, -, rfl⟩ := hexp.listed id cs hentry
    exact List.nodup_eraseDups _
  · exact (hexp.children id cs hentry c hc).resolve_left List.not_mem_nil

/-- The number of units left that were derived from a unit directly. -/
def waiting (g : ProvenanceGraph) (seen : List UnitId) (c : UnitId) : Nat :=
  g.countP fun (id, cs) => !seen.contains id && cs.contains c

/-- A number for each unit of a graph. -/
def table (g : ProvenanceGraph) (f : UnitId → Nat) : List (UnitId × Nat) :=
  g.map fun (id, _) => (id, f id)

theorem lookup_table {f : UnitId → Nat} {c : UnitId} (hc : c ∈ g.units) :
    (g.table f).lookup c = some (f c) := by
  induction g with
  | nil => cases hc
  | cons entry g ih =>
    obtain ⟨id, cs⟩ := entry
    by_cases hid : c = id
    · simp [table, hid]
    · have hc := (List.mem_cons.mp hc).resolve_left hid
      simpa [table, List.lookup_cons, beq_eq_false_iff_ne.mpr hid] using ih hc

/-- The units of a table with number zero. -/
theorem mem_roots {f : UnitId → Nat} {c : UnitId} :
    c ∈ ((g.table f).filter (·.2 = 0)).map (·.1) ↔ c ∈ g.units ∧ f c = 0 := by
  simp only [table, units, List.mem_map, List.mem_filter, decide_eq_true_eq]
  constructor
  · rintro ⟨_, ⟨⟨entry, hentry, rfl⟩, hzero⟩, rfl⟩
    exact ⟨⟨entry, hentry, rfl⟩, hzero⟩
  · rintro ⟨⟨entry, hentry, rfl⟩, hzero⟩
    exact ⟨_, ⟨⟨entry, hentry, rfl⟩, hzero⟩, rfl⟩

/-- Counting down the children of a unit. -/
theorem release_table {cs : List UnitId} {f : UnitId → Nat} (hn : cs.Nodup)
    (hcs : ∀ c ∈ cs, c ∈ g.units ∧ 0 < f c) :
    release cs (g.table f) = (cs.filter fun c => f c = 1,
      g.table fun id => if id ∈ cs then f id - 1 else f id) := by
  induction cs generalizing f with
  | nil => simp [release]
  | cons c cs ih =>
    obtain ⟨⟨hc, hpos⟩, hrest⟩ := List.forall_mem_cons.mp hcs
    obtain ⟨hnot, hn⟩ := List.nodup_cons.mp hn
    obtain ⟨d, hd⟩ := Nat.exists_eq_succ_of_ne_zero (Nat.ne_of_gt hpos)
    set f' : UnitId → Nat := fun id => if id = c then d else f id with hf'
    have hsame (i : UnitId) (hi : i ∈ cs) : f' i = f i :=
      if_neg (ne_of_mem_of_not_mem hi hnot)
    have hdown : ((g.table f).map fun entry => if entry.1 = c then (entry.1, d) else entry) =
        g.table f' := by
      rw [table, table, List.map_map]
      refine List.map_congr_left fun entry _ => ?_
      simp only [hf', Function.comp_apply]
      split <;> rfl
    have hrec := ih (f := f') hn fun i hi => by rw [hsame i hi]; exact hrest i hi
    unfold release
    rw [lookup_table hc, hd]
    dsimp only
    rw [hdown, hrec]
    refine Prod.ext ?_ ?_
    · rw [List.filter_congr fun i hi => by rw [hsame i hi]]
      by_cases hzero : d = 0
      · simp [hd, hzero]
      · simp [hd, hzero]
    · refine List.map_congr_left fun entry _ => ?_
      by_cases hid : entry.1 = c
      · simp [hf', hid, hnot, hd]
      · simp [hf', hid]

theorem mem_of_mem_units {id : UnitId} (h : id ∈ g.units) :
    (id, (g.lookup id).getD []) ∈ g := by
  induction g with
  | nil => cases h
  | cons entry g ih =>
    obtain ⟨i, cs⟩ := entry
    by_cases hid : id = i
    · simp [hid]
    · have hrest := ih ((List.mem_cons.mp h).resolve_left hid)
      simpa [List.lookup_cons, beq_eq_false_iff_ne.mpr hid] using .inr hrest

/-- Units wait for as many units as before once a unit is listed that is not there. -/
private theorem waiting_of_notMem {seen : List UnitId} {id : UnitId} (h : id ∉ g.units)
    (c : UnitId) : g.waiting (seen ++ [id]) c = g.waiting seen c := by
  refine List.countP_congr fun entry hentry => ?_
  have hne : entry.1 ≠ id := fun heq => h (heq ▸ List.mem_map_of_mem hentry)
  simp [hne]

/-- Once a unit is listed its children wait for one unit less. -/
theorem waiting_append {seen : List UnitId} {id : UnitId} {cs : List UnitId}
    (hn : g.units.Nodup) (hid : (id, cs) ∈ g) (hseen : id ∉ seen) (c : UnitId) :
    g.waiting seen c = g.waiting (seen ++ [id]) c + if c ∈ cs then 1 else 0 := by
  induction g with
  | nil => cases hid
  | cons entry g ih =>
    obtain ⟨i, ds⟩ := entry
    obtain ⟨hi, hn⟩ := List.nodup_cons.mp hn
    rw [waiting, waiting, List.countP_cons, List.countP_cons, ← waiting, ← waiting]
    rcases List.mem_cons.mp hid with heq | hid
    · obtain ⟨rfl, rfl⟩ := Prod.mk.inj heq
      rw [waiting_of_notMem hi]
      simp [hseen]
    · have hmem : id ∈ units g := List.mem_map_of_mem (f := Prod.fst) hid
      have hne : i ≠ id := fun heq => hi (heq ▸ hmem)
      have hsame : (seen ++ [id]).contains i = seen.contains i := by simp [hne]
      simp only [ih hn hid, hsame]
      exact Nat.add_right_comm _ _ _

/-- What holds of a queue of the units that wait for no other unit. -/
structure Ready (g : ProvenanceGraph) (seen queue : List UnitId) : Prop where
  nodup : (seen ++ queue).Nodup
  known : ∀ id ∈ queue, id ∈ g.units
  ready : ∀ id ∈ seen ++ queue, g.waiting seen id = 0
  queued : ∀ id ∈ g.units, g.waiting seen id = 0 → id ∈ seen ++ queue

/-- No child of a listed unit has been listed before it. -/
def Ordered (g : ProvenanceGraph) : (seen order : List UnitId) → Prop
  | _, [] => True
  | seen, id :: rest =>
    (∀ c ∈ (g.lookup id).getD [], c ∉ seen ∧ c ≠ id) ∧ Ordered g (seen ++ [id]) rest

/-- Listing the first unit of a queue releases the children that wait for no other unit. None of its
children has been listed or queued before. -/
theorem Ready.release {seen queue cs : List UnitId} {id : UnitId} (hg : g.Complete)
    (hr : g.Ready seen (id :: queue)) (hcs : (id, cs) ∈ g) :
    ∃ ready, ProvenanceGraph.release cs (g.table (g.waiting seen)) =
        (ready, g.table (g.waiting (seen ++ [id]))) ∧
      g.Ready (seen ++ [id]) (queue ++ ready) ∧ ∀ c ∈ cs, c ∉ seen ++ id :: queue := by
  obtain ⟨hcn, hchildren⟩ := hg.children id cs hcs
  have hseen : id ∉ seen := fun h => (List.nodup_append'.mp hr.nodup).2.2 h List.mem_cons_self
  have hdown := waiting_append hg.nodup hcs hseen
  have hpos : ∀ c ∈ cs, 0 < g.waiting seen c := fun c hc => by
    rw [hdown, if_pos hc]
    exact Nat.succ_pos _
  have hnew : ∀ c ∈ cs, c ∉ seen ++ id :: queue := fun c hc hmem =>
    Nat.ne_of_gt (hpos c hc) (hr.ready c hmem)
  have hrelease := release_table (f := g.waiting seen) hcn fun c hc => ⟨hchildren c hc, hpos c hc⟩
  have htable : (g.table fun i => if i ∈ cs then g.waiting seen i - 1 else g.waiting seen i) =
      g.table (g.waiting (seen ++ [id])) := by
    refine List.map_congr_left fun entry _ => ?_
    dsimp only
    rw [hdown entry.1]
    split <;> simp
  refine ⟨_, hrelease.trans (by rw [htable]), ?_, hnew⟩
  set ready := cs.filter fun c => g.waiting seen c = 1 with hready
  have hrc (c : UnitId) (hc : c ∈ ready) : c ∈ cs ∧ g.waiting seen c = 1 := by
    simpa [hready] using hc
  have hassoc : seen ++ [id] ++ (queue ++ ready) = seen ++ id :: queue ++ ready := by simp
  refine ⟨?_, ?_, fun i hi => ?_, fun i hi hzero => ?_⟩
  · rw [hassoc]
    exact List.nodup_append'.mpr
      ⟨hr.nodup, hcn.filter _, fun i hi hi' => hnew i (hrc i hi').1 hi⟩
  · intro i hi
    rcases List.mem_append.mp hi with hi | hi
    · exact hr.known i (List.mem_cons_of_mem id hi)
    · exact hchildren i (hrc i hi).1
  · rw [hassoc] at hi
    have hdown := hdown i
    rcases List.mem_append.mp hi with hi | hi
    · rw [hr.ready i hi] at hdown
      omega
    · rw [(hrc i hi).2, if_pos (hrc i hi).1] at hdown
      omega
  · rw [hassoc]
    have hdown := hdown i
    rw [hzero, Nat.zero_add] at hdown
    by_cases hic : i ∈ cs
    · rw [if_pos hic] at hdown
      exact List.mem_append_right _ (List.mem_filter.mpr ⟨hic, by simpa using hdown⟩)
    · rw [if_neg hic] at hdown
      exact List.mem_append_left _ (hr.queued i hi hdown)

/-- The schedule lists units once, and after all units that were derived from them. -/
theorem schedule_spec {n : Nat} {seen queue : List UnitId} (hg : g.Complete)
    (hr : g.Ready seen queue) :
    (seen ++ g.schedule n queue (g.table (g.waiting seen))).Nodup ∧
      (∀ id ∈ g.schedule n queue (g.table (g.waiting seen)), id ∈ g.units) ∧
      g.Ordered seen (g.schedule n queue (g.table (g.waiting seen))) := by
  induction n generalizing seen queue with
  | zero =>
    have hempty : g.schedule 0 queue (g.table (g.waiting seen)) = [] := by cases queue <;> rfl
    rw [hempty, List.append_nil]
    exact ⟨(List.nodup_append'.mp hr.nodup).1, nofun, trivial⟩
  | succ n ih =>
    cases queue with
    | nil =>
      refine ⟨?_, nofun, trivial⟩
      simpa [schedule] using hr.nodup
    | cons id queue =>
      have hid := hr.known id List.mem_cons_self
      have hentry := mem_of_mem_units hid
      obtain ⟨ready, hrelease, hnext, hnew⟩ := hr.release hg hentry
      obtain ⟨hnodup, hknown, hordered⟩ := ih hnext
      have hstep : g.schedule (n + 1) (id :: queue) (g.table (g.waiting seen)) =
          id :: g.schedule n (queue ++ ready) (g.table (g.waiting (seen ++ [id]))) := by
        rw [schedule, hrelease]
      rw [hstep]
      refine ⟨?_, List.forall_mem_cons.mpr ⟨hid, hknown⟩, fun c hc => ?_, hordered⟩
      · rwa [List.append_assoc, List.singleton_append] at hnodup
      · have hc := hnew c hc
        rw [List.mem_append, List.mem_cons, not_or, not_or] at hc
        exact ⟨hc.1, hc.2.1⟩

/-- An order of all units of a graph has every unit before those that it was derived from. -/
theorem scheduled_of_ordered {seen order : List UnitId} (hg : g.Complete)
    (hlisted : ∀ id cs, (id, cs) ∈ g →
      ∃ e, store.get? id = some e ∧ cs = e.provenance.electrons.eraseDups)
    (hknown : ∀ id ∈ order, id ∈ g.units) (hall : ∀ id ∈ g.units, id ∈ seen ++ order)
    (h : g.Ordered seen order) : store.Scheduled order := by
  induction order generalizing seen with
  | nil => trivial
  | cons id order ih =>
    obtain ⟨hid, hrest⟩ := List.forall_mem_cons.mp hknown
    obtain ⟨hfirst, hordered⟩ := h
    refine ⟨fun e he c hc => ?_, ih hrest (fun i hi => by simpa using hall i hi) hordered⟩
    have hentry := mem_of_mem_units hid
    obtain ⟨e', he', hcs⟩ := hlisted id _ hentry
    obtain rfl := Option.some.inj (he.symm.trans he')
    have hchild : c ∈ (g.lookup id).getD [] := by rw [hcs]; exact List.mem_eraseDups.mpr hc
    obtain ⟨hseen, hne⟩ := hfirst c hchild
    have hmem := hall c ((hg.children id _ hentry).2 c hchild)
    rw [List.mem_append, List.mem_cons] at hmem
    exact (hmem.resolve_left hseen).resolve_left hne

/-- The degrees that the order starts from are those of a graph with nothing listed. -/
theorem degrees_eq_table :
    (g.map fun (id, _) => (id, g.degree id)) = g.table (g.waiting []) := by
  refine List.map_congr_left fun entry _ => ?_
  simp [degree, waiting]

/-- When the root alone waits for nothing, the schedule may start from it. -/
theorem ready_root {root : UnitId} (hroot : root ∈ g.units)
    (hwaiting : ∀ c, c ∈ g.units ∧ g.waiting [] c = 0 ↔ c = root) : g.Ready [] [root] where
  nodup := by simp
  known := by simpa using hroot
  ready := fun id hid => ((hwaiting id).mpr (by simpa using hid)).2
  queued := fun id hid hzero => by simpa using (hwaiting id).mp ⟨hid, hzero⟩

/-- The root alone waits for nothing if it is the only unit whose counter starts at zero. -/
theorem waits_for_none_of_roots {root : UnitId}
    (h : (((g.table (g.waiting [])).filter (·.2 = 0)).map (·.1)).mergeSort (· ≤ ·) = [root])
    (c : UnitId) : c ∈ g.units ∧ g.waiting [] c = 0 ↔ c = root := by
  rw [← mem_roots, ← (List.mergeSort_perm _ _).mem_iff, h, List.mem_singleton]

/-- The order of a graph starts with the root, lists every unit once, and has every unit before its
children. It is only made if the root alone waits for no other unit. -/
theorem order_spec {root : UnitId} {order : List UnitId} (hg : g.Complete) (hroot : root ∈ g.units)
    (h : g.order root = .ok order) :
    order.head? = some root ∧ order.Perm g.units ∧ g.Ordered [] order := by
  unfold ProvenanceGraph.order at h
  dsimp only at h
  split at h
  · cases h
  next hroots =>
  split at h
  · next hlength =>
    obtain rfl := Except.ok.inj h
    rw [degrees_eq_table] at hroots hlength ⊢
    have hready := ready_root hroot (waits_for_none_of_roots (not_not.mp hroots))
    obtain ⟨hnodup, hknown, hordered⟩ := schedule_spec (n := g.length) hg hready
    rw [List.nil_append] at hnodup
    have hlen : g.units.length = g.length := List.length_map _
    have hperm := (List.subperm_of_subset hnodup hknown).perm_of_length_le
      (Nat.le_of_eq (hlen.trans hlength.symm))
    refine ⟨?_, hperm, hordered⟩
    cases hlen' : g.length with
    | zero =>
      rw [List.length_eq_zero_iff.mp (hlen.trans hlen')] at hroot
      cases hroot
    | succ n => rfl
  · cases h

end ProvenanceGraph

/-- The order in which a derivation is gone through has its root, and every unit before those that
it was derived from. -/
theorem Store.scheduled_of_derivationOrder {store : Store} {root : UnitId} {order : List UnitId}
    (h : store.derivationOrder root = .ok order) : root ∈ order ∧ store.Scheduled order := by
  obtain ⟨g, hg, h⟩ := Except.bind_eq_ok.mp h
  obtain ⟨hcomplete, hroot, hlisted⟩ := ProvenanceGraph.complete_of_ofRoot hg
  obtain ⟨-, hperm, hordered⟩ := ProvenanceGraph.order_spec hcomplete hroot h
  exact ⟨hperm.mem_iff.mpr hroot, ProvenanceGraph.scheduled_of_ordered hcomplete hlisted
    (fun id => hperm.mem_iff.mp) (fun id hid => hperm.mem_iff.mpr hid) hordered⟩

end HornSaturation
