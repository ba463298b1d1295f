import HornSaturation.Proofs.Run.Closure
import HornSaturation.Proofs.Run.Journal
import HornSaturation.Proofs.Run.Settling

/-!
# Exact bookkeeping

With subsumption by implication, what a run counts is what is in its store and in its journal, in
every state and for every search strategy: every unit that it settles is counted once, under its
class, and the stored units are those that have been inserted or recorded. A stored unit is younger
than the units it comes from, and no two active units of a relation have the same canonical form.
-/

namespace HornSaturation

/-- Whether a unit of this class is stored in place of others. -/
def Classification.isNew : Classification → Bool
  | .new _ => true
  | _ => false

namespace Store

variable {p : NormalizedProblem} {store store' : Store} {e : StoredUnit} {u : UnitClause}
  {pr : Provenance} {s : Statistics}

/-- Units are stored after the units that they were derived from. -/
def Older (store : Store) : Prop :=
  ∀ id e, store.get? id = some e → ∀ i ∈ e.provenance.electrons, i < id

/-- No two active units of one relation have the same canonical form. -/
def Irredundant (store : Store) : Prop :=
  ∀ i j e f, i ≠ j → store.get? i = some e → store.get? j = some f → e.active = true →
    f.active = true → e.unit.head = f.unit.head → ∀ c d,
      e.unit.canonical store.relations = .ok c → f.unit.canonical store.relations = .ok d →
      c.constraint ≠ d.constraint

/-- A store without new units has none that were not there before. -/
theorem Evolves.exists_before (h : store.Evolves store') (hsize : store'.size = store.size)
    {id : UnitId} (he : store'.get? id = some e) : ∃ f, store.get? id = some f ∧
      e.unit = f.unit ∧ e.provenance = f.provenance ∧ (e.active = true → f.active = true) := by
  obtain ⟨f, hf⟩ := exists_get? (hsize ▸ lt_size_of_get? he)
  obtain ⟨e', he', hkept⟩ := h.kept id f hf
  obtain rfl := Option.some.inj (he.symm.trans he')
  exact ⟨f, hf, hkept⟩

theorem Older.thinned (h : store.Older) (hev : store.Evolves store')
    (hsize : store'.size = store.size) : store'.Older := by
  intro id e he
  obtain ⟨f, hf, -, hprovenance, -⟩ := hev.exists_before hsize he
  exact hprovenance ▸ h id f hf

theorem Older.adds (h : store.Older) (hadds : store.Adds e store')
    (he : ∀ i ∈ e.provenance.electrons, i < store.size) : store'.Older := by
  intro id f hf
  rw [hadds.entry] at hf
  split at hf
  · next hid =>
    obtain rfl := Option.some.inj hf
    exact hid ▸ he
  · exact h id f hf

theorem Irredundant.thinned (h : store.Irredundant) (hev : store.Evolves store')
    (hsize : store'.size = store.size) : store'.Irredundant := by
  intro i j e f hij he hf hactive hactive' hhead
  obtain ⟨e₀, he₀, hunit, -, hbefore⟩ := hev.exists_before hsize he
  obtain ⟨f₀, hf₀, hunit', -, hbefore'⟩ := hev.exists_before hsize hf
  rw [hev.relations, hunit, hunit']
  rw [hunit, hunit'] at hhead
  exact h i j e₀ f₀ hij he₀ hf₀ (hbefore hactive) (hbefore' hactive') hhead

/-- A store stays without redundancy if the unit that is added is inactive, or differs from the
active units of its relation. -/
theorem Irredundant.adds (h : store.Irredundant) (hadds : store.Adds e store')
    (he : e.active = true → ∀ j f, store.get? j = some f → f.active = true →
      f.unit.head = e.unit.head → ∀ c d, f.unit.canonical store.relations = .ok c →
      e.unit.canonical store.relations = .ok d → c.constraint ≠ d.constraint) :
    store'.Irredundant := by
  intro i j f g hij hf hg hactive hactive' hhead c d hc hd
  rw [hadds.relations] at hc hd
  rw [hadds.entry] at hf hg
  split at hf
  · next hi =>
    obtain rfl := Option.some.inj hf
    rw [if_neg fun hj => hij (hi.trans hj.symm)] at hg
    exact (he hactive j g hg hactive' hhead.symm d c hd hc).symm
  · split at hg
    · obtain rfl := Option.some.inj hg
      exact he hactive' i f hf hactive hhead c d hc hd
    · exact h i j f g hij hf hg hactive hactive' hhead c d hc hd

/-- Active units differ from a unit that is not found among them. -/
theorem Listed.ne_canonical (hl : store.Listed) (hu : store.containsIdentical u = false)
    {j : UnitId} {f : StoredUnit} (hf : store.get? j = some f) (hactive : f.active = true)
    {r : RelationId} (hr : u.head = some r) (hhead : f.unit.head = some r) {c d : UnitClause}
    (hc : f.unit.canonical store.relations = .ok c)
    (hd : u.canonical store.relations = .ok d) : c.constraint ≠ d.constraint := by
  intro heq
  unfold containsIdentical at hu
  rw [hr, hd] at hu
  have hmem : (j, f.unit) ∈ store.unitsOf r := hl.mem_unitsOf.mpr ⟨f, hf, hactive, rfl, hhead⟩
  have hnot := List.any_eq_false.mp hu _ hmem
  dsimp only at hnot
  rw [hc] at hnot
  exact hnot (decide_eq_true heq)

/-- What holds of a store in which some units have been inserted and some have been removed. -/
structure Tidy (p : NormalizedProblem) (s : Statistics) (store : Store) : Prop where
  relations : store.relations = p.relations
  consistent : store.Consistent
  older : store.Older
  irredundant : store.Irredundant
  active : store.active.length + s.backwardRemoved = s.inserted
  size : store.size = s.inserted + store.refutations.length

theorem Tidy.congr {s' : Statistics} (h : store.Tidy p s)
    (hremoved : s'.backwardRemoved = s.backwardRemoved) (hinserted : s'.inserted = s.inserted) :
    store.Tidy p s' where
  relations := h.relations
  consistent := h.consistent
  older := h.older
  irredundant := h.irredundant
  active := by rw [hremoved, hinserted, h.active]
  size := by rw [hinserted, h.size]

theorem Tidy.empty (p : NormalizedProblem) : Tidy p {} { relations := p.relations } := by
  have hnone (id : UnitId) : Store.get? { relations := p.relations } id = none := by simp [get?]
  refine ⟨rfl, .empty p.relations, fun id e he => ?_, fun i j e f _ he => ?_, rfl, rfl⟩
  all_goals
    rw [hnone] at he
    cases he

/-- Recording a contradiction keeps a store tidy. -/
theorem Tidy.recordRefutation {id : UnitId} (h : store.Tidy p s)
    (hpr : ∀ i ∈ pr.electrons, i < store.size)
    (hrecord : store.recordRefutation u pr = .ok (id, store')) :
    store'.Tidy p s ∧ store'.refutations.length = store.refutations.length + 1 := by
  obtain ⟨hadds, -⟩ := adds_of_recordRefutation hrecord
  obtain ⟨-, -, heq⟩ := recordRefutation_eq_ok.mp hrecord
  have hsize : store'.size = store.size + 1 := by
    rw [heq]
    exact Array.size_push _
  have hactive : store'.active = store.active :=
    (hadds.active hsize).trans (List.append_nil _)
  have hrefs : store'.refutations.length = store.refutations.length + 1 := by
    rw [heq, List.length_append, List.length_singleton]
  refine ⟨⟨hadds.relations.trans h.relations, h.consistent.recordRefutation hrecord,
    h.older.adds hadds hpr, h.irredundant.adds hadds nofun, hactive ▸ h.active, ?_⟩, hrefs⟩
  have := h.size
  omega

/-- Storing a new unit in place of active ones keeps a store tidy. -/
theorem Tidy.replaced {left : Store} {removed : List UnitId} {id : UnitId} (h : store.Tidy p s)
    (hpr : ∀ i ∈ pr.electrons, i < store.size) (hu : store.containsIdentical u = false)
    (hleft : store.Thinned removed left) (hinsert : left.insert u pr = .ok (id, store')) :
    store'.Tidy p (s.settled (.new removed)) ∧
      store'.refutations.length = store.refutations.length := by
  obtain ⟨hadds, -⟩ := adds_of_insert hinsert
  obtain ⟨r, hr, -, -, heq⟩ := insert_eq_ok.mp hinsert
  have hsize : store'.size = left.size + 1 := by
    rw [heq]
    exact Array.size_push _
  have hactive : store'.active = left.active ++ [left.size] := hadds.active hsize
  have hrefs : store'.refutations = store.refutations := by
    rw [heq]
    exact hleft.refutations
  refine ⟨⟨(hadds.relations.trans hleft.evolves.relations).trans h.relations,
    hleft.consistent.insert hinsert, ?_, ?_, ?_, ?_⟩, congrArg List.length hrefs⟩
  · exact (h.older.thinned hleft.evolves hleft.size).adds hadds (hleft.size ▸ hpr)
  · refine (h.irredundant.thinned hleft.evolves hleft.size).adds hadds
      fun _ j f hf hactive hhead c d hc hd => ?_
    obtain ⟨f₀, hf₀, hunit, -, hbefore⟩ := hleft.evolves.exists_before hleft.size hf
    rw [hleft.evolves.relations] at hc hd
    rw [hunit] at hc hhead
    exact h.consistent.listed.ne_canonical hu hf₀ (hbefore hactive) hr (hhead.trans hr) hc hd
  · have := h.active
    have := hleft.active
    rw [hactive, List.length_append, List.length_singleton]
    simp only [Statistics.settled]
    omega
  · have := h.size
    rw [hsize, hleft.size, hrefs]
    simp only [Statistics.settled]
    omega

/-- Settling a unit keeps a store tidy, and adds a refutation exactly for a contradiction. -/
theorem Tidy.settled {o : Oracle} {cls : Classification} {result : Option UnitId}
    (h : store.Tidy p s) (hpr : ∀ i ∈ pr.electrons, i < store.size)
    (hcls : (classify .byImplication store u o).1 = cls)
    (hsettled : store.settled u pr cls = .ok (result, store')) :
    store'.Tidy p (s.settled cls) ∧ store'.refutations.length =
      store.refutations.length + if cls = .contradiction then 1 else 0 := by
  cases cls with
  | contradiction =>
    obtain ⟨⟨id, units⟩, hrecord, heq⟩ := Except.map_eq_ok.mp hsettled
    obtain ⟨-, rfl⟩ := Prod.mk.inj heq
    exact h.recordRefutation hpr hrecord
  | infeasible =>
    obtain ⟨-, rfl⟩ := Prod.mk.inj (Except.ok.inj hsettled)
    exact ⟨h.congr rfl rfl, rfl⟩
  | forwardSubsumed =>
    obtain ⟨-, rfl⟩ := Prod.mk.inj (Except.ok.inj hsettled)
    exact ⟨h.congr rfl rfl, rfl⟩
  | new removed =>
    obtain ⟨hidentical, left, id, hleft, hinsert⟩ :=
      h.consistent.replaced_of_settled (Prod.ext hcls rfl) hsettled
    exact h.replaced hpr hidentical hleft hinsert

end Store

variable {σ : Type} {m : Method σ} {p : NormalizedProblem} {r r' : Run σ}
  {journal es : List Entry} {s : Statistics}

/-- What has been counted is what is in the journal: inferences are the entries that come from other
units, and each class has its own number. -/
structure Statistics.Counts (s : Statistics) (refutations : Nat) (journal : List Entry) : Prop where
  derivations : s.derivations = journal.countP fun e => !e.provenance.electrons.isEmpty
  infeasible : s.infeasible = journal.countP fun e => e.classification = .infeasible
  forwardSubsumed : s.forwardSubsumed =
    journal.countP fun e => e.classification = .forwardSubsumed
  inserted : s.inserted = journal.countP fun e => e.classification.isNew
  refutations : refutations = journal.countP fun e => e.classification = .contradiction

/-- Every entry of a journal is counted under exactly one class. -/
theorem Statistics.Counts.length_eq {n : Nat} (h : s.Counts n journal) :
    journal.length = s.infeasible + s.forwardSubsumed + s.inserted + n := by
  have hclasses (es : List Entry) : es.length =
      es.countP (fun e => e.classification = .infeasible) +
        es.countP (fun e => e.classification = .forwardSubsumed) +
        es.countP (fun e => e.classification.isNew) +
        es.countP (fun e => e.classification = .contradiction) := by
    induction es with
    | nil => rfl
    | cons e es ih =>
      rw [List.length_cons, ih]
      cases hcls : e.classification <;> simp [hcls, Classification.isNew] <;> omega
  rw [h.infeasible, h.forwardSubsumed, h.inserted, h.refutations, hclasses]

/-- The electrons of an offered unit are stored, and it is counted as an inference exactly if it has
some. -/
theorem Offered.electrons {store : Store} {u : UnitClause} {pr : Provenance}
    (h : Offered m p store u pr) (s : Statistics) : (∀ i ∈ pr.electrons, i < store.size) ∧
      s.offered pr =
        { s with derivations := s.derivations + if pr.electrons = [] then 0 else 1 } := by
  cases h with
  | fact => exact ⟨nofun, rfl⟩
  | @resolvent c nucleus electrons _ _ _ hpremises _ =>
    obtain ⟨-, hbody, hfit, -⟩ := Running.premises_spec hpremises
    refine ⟨fun i hi => ?_, ?_⟩
    · obtain ⟨-, -, e, he, -⟩ := hfit.flip.exists_right hi
      exact Store.lt_size_of_get? he
    · have hne : c.electrons ≠ [] := fun hnil => by
        rw [hnil, List.forall₂_nil_right_iff] at hfit
        exact hbody hfit
      rw [Provenance.electrons, if_neg hne]
      rfl

/-- Settling a unit is counted once, under its class. -/
theorem Statistics.Counts.settled {n : Nat} (h : s.Counts n journal) (e : Entry) :
    Counts (Statistics.settled { s with derivations := s.derivations +
        if e.provenance.electrons = [] then 0 else 1 } e.classification)
      (n + if e.classification = .contradiction then 1 else 0) (journal ++ [e]) := by
  obtain ⟨hder, hinf, hfwd, hins, href⟩ := h
  have hderivations : s.derivations + (if e.provenance.electrons = [] then 0 else 1) =
      (journal ++ [e]).countP fun e => !e.provenance.electrons.isEmpty := by
    rw [List.countP_append, hder, List.countP_singleton]
    by_cases hnil : e.provenance.electrons = [] <;> simp [hnil]
  cases hcls : e.classification
  all_goals
    refine ⟨hderivations, ?_, ?_, ?_, ?_⟩ <;>
      simp [List.countP_append, Statistics.settled, Classification.isNew, *]

namespace Run

/-- A state agrees with the journal of the run. -/
structure Booked (p : NormalizedProblem) (journal : List Entry) (r : Run σ) : Prop where
  tidy : r.units.Tidy p r.statistics
  counts : r.statistics.Counts r.units.refutations.length journal

/-- Every step keeps the state in agreement with the journal. -/
theorem Booked.writes (hm : m.subsumption = .byImplication) (h : r.Booked p journal)
    (hstep : r.Writes m p es r') : r'.Booked p (journal ++ es) := by
  cases hstep with
  | @settled r₁ u pr hoffered hunits horacle hcounted =>
    obtain ⟨hpr, hoffer⟩ := hoffered.electrons r.statistics
    have hlisted : r₁.units.Listed := hunits ▸ h.tidy.consistent.listed
    obtain ⟨result, r', hrun, hsettles⟩ :=
      (Running.ensures_settle_succeeds hm hlisted u pr).exists_ok fun _ _ => id
    obtain ⟨hsettled, hstatistics, -, -⟩ := hsettles
    have htidy : r.units.Tidy p { r.statistics with
        derivations := r.statistics.derivations + if pr.electrons = [] then 0 else 1 } :=
      h.tidy.congr rfl rfl
    rw [hunits, hm] at hsettled
    rw [hcounted, hoffer, hunits, hm] at hstatistics
    rw [hrun, hunits, hm]
    obtain ⟨htidy', hrefs⟩ := htidy.settled hpr rfl hsettled
    refine ⟨hstatistics ▸ htidy', ?_⟩
    rw [hstatistics, hrefs]
    exact h.counts.settled ⟨u, pr, _⟩
  | @recorded c u id units hc hu hrecord =>
    have hpr : ∀ i ∈ (Provenance.derived c.index []).electrons, i < r.units.size :=
      fun _ hi => absurd hi List.not_mem_nil
    obtain ⟨htidy, hrefs⟩ := h.tidy.recordRefutation hpr hrecord
    refine ⟨htidy, ?_⟩
    rw [hrefs]
    exact h.counts.settled ⟨u, .derived c.index [], .contradiction⟩
  | aside hunits hl hcounted =>
    rw [List.append_nil]
    refine ⟨?_, ?_⟩
    · rw [hunits, hcounted]
      exact h.tidy.congr rfl rfl
    · rw [hunits, hcounted]
      obtain ⟨hder, hinf, hfwd, hins, href⟩ := h.counts
      exact ⟨hder, hinf, hfwd, hins, href⟩

/-- The states that a run goes through, with its journal: it may start with any oracle, go on step
by step, and be given another oracle and other symbols in between. -/
inductive Journaled (m : Method σ) (p : NormalizedProblem) : List Entry → Run σ → Prop
  | start (search : σ) (oracle : Oracle) : Journaled m p [] (.start search p oracle)
  | written {r r' : Run σ} {journal es : List Entry} (h : Journaled m p journal r)
      (hstep : r.Writes m p es r') : Journaled m p (journal ++ es) r'
  | exchanged (workspace : Workspace) {r : Run σ} {journal : List Entry}
      (h : Journaled m p journal r) : Journaled m p journal { r with workspace }

theorem Journaled.journals (h : r.Journaled m p journal) (h' : r.Journals m p es r') :
    r'.Journaled m p (journal ++ es) := by
  induction h' with
  | refl => rwa [List.append_nil]
  | tail _ hstep ih => exact List.append_assoc _ _ _ ▸ ih.written hstep

/-- In every state that a run goes through, the state agrees with the journal. -/
theorem Journaled.booked (hm : m.subsumption = .byImplication) (h : r.Journaled m p journal) :
    r.Booked p journal := by
  induction h with
  | start search oracle => exact ⟨.empty p, rfl, rfl, rfl, rfl, rfl⟩
  | written _ hstep ih => exact ih.writes hm hstep
  | exchanged workspace _ ih => exact ⟨ih.tidy, ih.counts⟩

/-- Solving goes on with the journal. It gets through the facts of the problem, in the order of the
clauses, or through the first of them if it fails. -/
theorem Journaled.solve (h : r.Journaled m p journal) (c : Configuration) :
    ∃ es, ((Running.solve m p c).run.run r).2.Journaled m p (journal ++ es) ∧
      es.filterMap Entry.fact? <+: factsOf p.clauses ∧
      ∀ outcome, ((Running.solve m p c).run.run r).1 = .ok outcome →
        es.filterMap Entry.fact? = factsOf p.clauses := by
  have hsolve := Running.journaling_solve (m := m) (p := p) c r
  unfold Ensures at hsolve
  split at hsolve
  · next heq =>
    obtain ⟨es, hes, hfacts⟩ := hsolve
    rw [heq]
    exact ⟨es, h.journals hes, hfacts ▸ List.prefix_rfl, fun _ _ => hfacts⟩
  · next heq =>
    obtain ⟨es, hes, hfacts⟩ := hsolve
    rw [heq]
    exact ⟨es, h.journals hes, hfacts, fun _ hok => (nomatch hok)⟩

/-- In every state that a run with subsumption by implication goes through, what has been counted
agrees with the store and with the journal, in which every unit that has been settled stands under
one class; stored units are younger than those that they come from, and no two active units of a
relation have the same canonical form. Solving, with whatever answer, leads from one such state to
another. -/
theorem bookkeeping_exact (hm : m.subsumption = .byImplication) (h : r.Journaled m p journal) :
    r.units.activeSize + r.statistics.backwardRemoved = r.statistics.inserted ∧
      r.units.size = r.statistics.inserted + r.units.refutations.length ∧
      r.units.generation = r.statistics.inserted + r.statistics.backwardRemoved +
        r.units.refutations.length ∧
      r.statistics.Counts r.units.refutations.length journal ∧
      journal.length = r.statistics.infeasible + r.statistics.forwardSubsumed +
        r.statistics.inserted + r.units.refutations.length ∧
      r.units.Older ∧ r.units.Irredundant ∧
      ∀ c, ∃ es, ((Running.solve m p c).run.run r).2.Journaled m p (journal ++ es) ∧
        es.filterMap Entry.fact? <+: factsOf p.clauses ∧
        ∀ outcome, ((Running.solve m p c).run.run r).1 = .ok outcome →
          es.filterMap Entry.fact? = factsOf p.clauses := by
  obtain ⟨htidy, hcounts⟩ := h.booked hm
  have hactive := htidy.active
  have hsize := htidy.size
  have hcounted := htidy.consistent.counted
  refine ⟨?_, hsize, by omega, hcounts, hcounts.length_eq, htidy.older, htidy.irredundant, h.solve⟩
  rw [htidy.consistent.activeSize_eq, hactive]

theorem bookkeeping_threeIsPositive : ∃ journal,
    Run.threeIsPositive.Journaled .standard .threeIsPositive journal ∧
      Run.threeIsPositive.statistics.Counts 0 journal ∧
      Run.threeIsPositive.units.activeSize = 2 ∧ Run.threeIsPositive.units.Irredundant := by
  have hsearch : Running.Journaling .standard .threeIsPositive _ _ := Running.journaling_search {}
  obtain ⟨es, hes⟩ := hsearch.journals _
  have hjournaled : Run.threeIsPositive.Journaled .standard .threeIsPositive ([] ++ es) :=
    (Journaled.start {} _).journals hes
  obtain ⟨hactive, -, -, hcounts, -, -, hirredundant, -⟩ := bookkeeping_exact rfl hjournaled
  have hrefutations : Run.threeIsPositive.units.refutations.length = 0 := by cbv
  have hinserted : Run.threeIsPositive.statistics.inserted = 2 := by cbv
  have hremoved : Run.threeIsPositive.statistics.backwardRemoved = 0 := by cbv
  rw [hrefutations] at hcounts
  rw [hinserted, hremoved] at hactive
  exact ⟨_, hjournaled, hcounts, hactive, hirredundant⟩

end Run

end HornSaturation
