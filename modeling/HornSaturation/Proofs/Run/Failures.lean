import HornSaturation.Proofs.Inference.Saturation
import HornSaturation.Proofs.Refutation.Explanations
import HornSaturation.Proofs.Refutation.Failures
import HornSaturation.Proofs.Run.Settling
import HornSaturation.Proofs.Solution.Normalized

/-!
# How solving fails

With level saturation, projection and subsumption by implication, solving fails only if it has been
cancelled, or if the oracle finds no model for a step of a derivation. This needs no sorts and
nothing of the oracle: units are of declared relations and come from older ones that fit their
clauses, and the search names stored units that fit theirs.
-/

namespace HornSaturation

variable {p : NormalizedProblem} {store store' : Store} {u : UnitClause} {pr : Provenance}

namespace Store

/-- A candidate names stored units that fit its clause, and at least one. -/
def Suits (p : NormalizedProblem) (store : Store) (c : Candidate) : Prop :=
  c.electrons ≠ [] ∧ store.Fits p store.size c.nucleus c.electrons

theorem Suits.evolves {c : Candidate} (hev : store.Evolves store') (h : store.Suits p c) :
    store'.Suits p c := ⟨h.1, h.2.evolves hev hev.size_le⟩

/-- A combination of a clause with active units suits it. -/
theorem Combines.suits {c : Candidate} (hl : store.Listed) (h : store.Combines p c) :
    store.Suits p c := by
  obtain ⟨clause, hclause, hbody, hids⟩ := h
  refine ⟨fun hnil => hbody ?_, clause, hclause, hids.imp fun a i hi => ?_⟩
  · rwa [hnil, List.forall₂_nil_right_iff] at hids
  · obtain ⟨e, he, -, hhead⟩ := (hl a.relation i).mp hi
    exact ⟨lt_size_of_get? he, e, he, hhead⟩

/-- Settling a unit of a declared relation keeps a store coherent, and a contradiction is stored. -/
theorem Coherent.settled {cls : Classification} {result : Option UnitId} (h : store.Coherent p)
    (hu : ∃ vars, u.arguments p.relations = .ok vars) (hpr : store.Names p store.size pr)
    (hsettled : store.settled u pr cls = .ok (result, store')) :
    store'.Coherent p ∧ store.Evolves store' ∧
      ∀ root, result = some root → ∃ e, store'.get? root = some e := by
  cases cls with
  | contradiction =>
    obtain ⟨⟨id, units⟩, hrecord, heq⟩ := Except.map_eq_ok.mp hsettled
    obtain ⟨rfl, rfl⟩ := Prod.mk.inj heq
    obtain ⟨hadds, rfl⟩ := adds_of_recordRefutation hrecord
    refine ⟨h.adds hadds hu hpr, hadds.evolves, fun root hroot => ?_⟩
    exact Option.some.inj hroot ▸ ⟨_, hadds.get?_new⟩
  | infeasible =>
    obtain ⟨rfl, rfl⟩ := Prod.mk.inj (Except.ok.inj hsettled)
    exact ⟨h, .refl store, nofun⟩
  | forwardSubsumed =>
    obtain ⟨rfl, rfl⟩ := Prod.mk.inj (Except.ok.inj hsettled)
    exact ⟨h, .refl store, nofun⟩
  | new removed =>
    obtain ⟨left, hleft, hmap⟩ := Except.bind_eq_ok.mp hsettled
    obtain ⟨⟨id, units⟩, hinsert, heq⟩ := Except.map_eq_ok.mp hmap
    obtain ⟨rfl, rfl⟩ := Prod.mk.inj heq
    obtain ⟨hcoherent, hev, hsize⟩ := h.foldlM_retire hleft
    have hadds := (adds_of_insert hinsert).1
    exact ⟨hcoherent.adds hadds hu (hsize ▸ hpr.evolves hev), hev.trans hadds.evolves, nofun⟩

/-- The active units of every relation can be joined to an interpretation. -/
theorem Coherent.exists_interpret (h : store.Coherent p) (symbols : Symbols) (r : Relation) :
    ∃ i, Solution.interpret Term.project symbols store p.relations r = .ok i := by
  have hunits : ∃ units, (store.unitsOf r.id).mapM
      (fun entry => entry.2.atOccurrence p.relations 0) = .ok units := by
    refine Except.exists_mapM ?_
    rintro ⟨id, u⟩ hmem
    obtain ⟨e, he, -, rfl, -⟩ := h.listed.mem_unitsOf.mp hmem
    obtain ⟨vars, hvars⟩ := h.known id e he
    obtain ⟨move, hmove⟩ := UnitClause.exists_moveArguments hvars 0
    exact ⟨_, Except.bind_eq_ok.mpr ⟨move, hmove, rfl⟩⟩
  obtain ⟨units, hunits⟩ := hunits
  exact ⟨_, Except.bind_eq_ok.mpr ⟨_, Except.bind_eq_ok.mpr ⟨units, hunits, rfl⟩, rfl⟩⟩

/-- A coherent store has a solution, which interprets all relations. -/
theorem Coherent.exists_solution (h : store.Coherent p) (symbols : Symbols) :
    ∃ s, Solution.ofStore Term.project symbols store p.relations = .ok s ∧
      s.Complete p.relations := by
  have hmade : ∃ s, Solution.ofStore Term.project symbols store p.relations = .ok s := by
    refine Except.exists_foldlM (fun r _ s => ?_) _
    obtain ⟨i, hi⟩ := h.exists_interpret symbols r
    exact ⟨_, Except.bind_eq_ok.mpr ⟨i, hi, rfl⟩⟩
  obtain ⟨s, hs⟩ := hmade
  refine ⟨s, hs, fun id r hr => ?_⟩
  obtain ⟨hget, hid⟩ := relation?_eq_some.mp hr
  rcases Solution.get?_of_foldlM hs id with ⟨-, -, -, i, hi, -⟩ | ⟨hnot, -⟩
  · exact ⟨i, hi⟩
  · exact absurd hid (hnot r (List.mem_of_getElem? hget))

end Store

/-- A call of level saturation on suitable candidates leaves and issues suitable ones, and the units
of the one that it issues are active. -/
theorem Saturation.next_suits {s : Saturation} (hl : store.Listed)
    (h : ∀ c ∈ s.pending, store.Suits p c) :
    (∀ c ∈ (next p.clauses store s).2.pending, store.Suits p c) ∧
      ∀ c, (next p.clauses store s).1 = some c →
        store.Suits p c ∧ isReady store c = true := by
  rcases next_cases p.clauses store s with
    ⟨passed, c, rest, hpending, -, hready, hnext⟩ | ⟨-, hnext⟩
  · rw [hnext]
    rw [hpending] at h
    obtain ⟨hfirst, hrest⟩ := List.forall_mem_cons.mp (List.forall_mem_append.mp h).2
    refine ⟨hrest, fun d hd => ?_⟩
    obtain rfl := Option.some.inj hd
    exact ⟨hfirst, hready⟩
  · rw [hnext]
    have hcombines : ∀ c ∈ (s.refill p.clauses store).pending, store.Combines p c :=
      fun c hc => Store.mem_combinations.mp (List.mem_of_mem_filter hc)
    refine ⟨fun c hc => (hcombines c (List.mem_of_mem_tail hc)).suits hl, fun c hc => ?_⟩
    have hc := hcombines c (List.mem_of_mem_head? hc)
    exact ⟨hc.suits hl, hc.isReady hl⟩

namespace Running

/-- Active units of the relations of a body are fit. -/
theorem findUnfit_eq_none {body : List Atom} {ids : List UnitId}
    (h : List.Forall₂ (fun (a : Atom) i => ∃ e, store.get? i = some e ∧
      e.unit.head = some a.relation) body ids)
    (hactive : ∀ i ∈ ids, store.isActive i = true) : findUnfit store body ids = none := by
  induction h with
  | nil => rfl
  | @cons a i body ids hfirst _ ih =>
    obtain ⟨hi, hrest⟩ := List.forall_mem_cons.mp hactive
    obtain ⟨e, he, hhead⟩ := hfirst
    rw [Store.isActive, he, Option.any_some] at hi
    simp only [findUnfit, he, hi, hhead, decide_true, Bool.and_self, if_true]
    exact ih hrest

/-- A suitable candidate whose units are active keeps the contract of search strategies. -/
theorem exists_premises {c : Candidate} (h : store.Suits p c)
    (hready : Saturation.isReady store c = true) :
    ∃ clause us, premises p store c = .ok (clause, us) := by
  obtain ⟨hne, clause, hclause, hes⟩ := h
  have hbody : clause.body.isEmpty = false := by
    refine List.isEmpty_eq_false_iff.mpr fun hnil => hne ?_
    rwa [hnil, List.forall₂_nil_left_iff] at hes
  have hfit := findUnfit_eq_none (hes.imp fun _ _ h => h.2) (List.all_eq_true.mp hready)
  refine ⟨clause, c.electrons.filterMap fun id => (store.get? id).map (·.unit), ?_⟩
  simp only [premises, hclause, hbody, hes.length_eq, hfit, Bool.false_eq_true, if_false, ne_eq,
    not_true_eq_false]

variable {r r' : Run Saturation} {c : Configuration}

/-- The store of a run is coherent, and its search is about to issue suitable candidates. -/
structure Healthy (p : NormalizedProblem) (r : Run Saturation) : Prop where
  units : r.units.Coherent p
  search : ∀ c ∈ r.search.pending, r.units.Suits p c

/-- Neither the oracle nor the symbols, counts or reports matter. -/
theorem Healthy.congr (h : Healthy p r) (hunits : r'.units = r.units)
    (hsearch : r'.search = r.search) : Healthy p r' :=
  ⟨hunits ▸ h.units, by rw [hunits, hsearch]; exact h.search⟩

/-- Settling a unit does not fail. -/
theorem ensures_settle_healthy (h : Healthy p r)
    (hu : ∃ vars, u.arguments p.relations = .ok vars)
    (hpr : r.units.Names p r.units.size pr) :
    Ensures (settle .standard u pr) r
      (fun result r' => Healthy p r' ∧ r'.workspace.symbols = r.workspace.symbols ∧
        ∀ root, result = some root → ∃ e, r'.units.get? root = some e)
      fun _ _ => False := by
  refine (ensures_settle_succeeds rfl h.units.listed u pr).mono (fun result r' hs => ?_)
    fun _ _ => id
  obtain ⟨hcoherent, hev, hroot⟩ := h.units.settled hu hpr hs.units
  refine ⟨⟨hcoherent, fun c hc => ?_⟩, by rw [hs.workspace], hroot⟩
  rw [hs.search] at hc
  exact (h.search c hc).evolves hev

/-- Storing facts does not fail. -/
theorem ensures_seed_healthy (hp : p.Resolved) {cs : List NormalizedClause}
    (hcs : ∀ c ∈ cs, c ∈ p.clauses) (h : Healthy p r)
    (hready : r.workspace.symbols.ready = true) :
    Ensures (seed .standard p cs) r
      (fun _ r' => Healthy p r' ∧ r'.workspace.symbols.ready = true) fun _ _ => False := by
  induction cs generalizing r with
  | nil => exact ⟨h, hready⟩
  | cons c cs ih =>
    obtain ⟨hc, hrest⟩ := List.forall_mem_cons.mp hcs
    unfold seed
    split
    · next hfact =>
      obtain ⟨u₀, hu₀, hhead⟩ := UnitClause.exists_ofNormalized (Bool.and_eq_true_iff.mp hfact).1
      have hknown := UnitClause.exists_arguments_of_head (hp.known c hc) hhead
      simp only [ensures_bind, ensures_work, ensures_allocate, hu₀, ensures_ok]
      refine (ensures_reduceUnit_total _ hknown _).mono (fun u s hs => ?_) fun _ _ => id
      set r₁ : Run Saturation := { r with workspace := { r.workspace with symbols := s } }
      have hu := UnitClause.exists_arguments_of_head (hp.known c hc) (hs.1.trans hhead)
      have h₁ : Healthy p r₁ := h.congr rfl rfl
      have hnames : r₁.units.Names p r₁.units.size (.fact c.index) := trivial
      refine (ensures_settle_healthy h₁ hu hnames).mono (fun _ r₂ h₂ => ?_) fun _ _ => id
      refine ih hrest h₂.1 ?_
      rw [h₂.2.1]
      exact hs.2.trans hready
    · exact ih hrest h hready

/-- Making an inference with a suitable candidate whose units are active does not fail. -/
theorem ensures_infer_healthy (hp : p.Resolved) {trace : Bool} {candidate : Candidate}
    (h : Healthy p r) (hready : r.workspace.symbols.ready = true)
    (hsuits : r.units.Suits p candidate)
    (hactive : Saturation.isReady r.units candidate = true) :
    Ensures (infer .standard p trace candidate) r
      (fun result r' => Healthy p r' ∧ r'.workspace.symbols.ready = true ∧
        ∀ root, result = some root → ∃ e, r'.units.get? root = some e)
      fun _ _ => False := by
  obtain ⟨clause, us, hpremises⟩ := exists_premises hsuits hactive
  obtain ⟨hclause, -, hfit, hus⟩ := premises_spec hpremises
  have hknown := hp.known clause (List.mem_of_getElem? hclause)
  have htakes := Store.forall₂_takes (hfit.imp fun _ _ ⟨e, he, _, hrel⟩ => ⟨e, he, hrel⟩) hus
  unfold infer
  simp only [ensures_bind, ensures_get, hpremises, ensures_ok, ensures_work, ensures_allocate,
    ensures_count]
  refine (ensures_resolve_total _ hknown htakes hready).mono (fun u s hs => ?_) fun _ _ => id
  have hu := UnitClause.exists_arguments_of_head hknown hs.1
  have settled {r₁ : Run Saturation} (hunits : r₁.units = r.units)
      (hsearch : r₁.search = r.search) (hsymbols : r₁.workspace.symbols = s) :
      Ensures (settle .standard u (.derived candidate.nucleus candidate.electrons)) r₁
        (fun result r' => Healthy p r' ∧ r'.workspace.symbols.ready = true ∧
          ∀ root, result = some root → ∃ e, r'.units.get? root = some e)
        fun _ _ => False := by
    have hnames : r₁.units.Names p r₁.units.size
        (.derived candidate.nucleus candidate.electrons) := hunits ▸ hsuits.2
    refine (ensures_settle_healthy (h.congr hunits hsearch) hu hnames).mono (fun _ r' h' => ?_)
      fun _ _ => id
    refine ⟨h'.1, ?_, h'.2.2⟩
    rw [h'.2.1, hsymbols]
    exact hs.2
  split
  · simp only [ensures_bind, ensures_get, ensures_report]
    exact settled rfl rfl rfl
  · exact settled rfl rfl rfl

/-- The search fails only if it is cancelled. -/
theorem ensures_saturate_healthy (hp : p.Resolved) (n : Nat) (h : Healthy p r)
    (hready : r.workspace.symbols.ready = true) :
    Ensures (saturate .standard p c n) r
      (fun result r' => Healthy p r' ∧
        ∀ root, result = .refuted root → ∃ e, r'.units.get? root = some e)
      fun e r' => (e = .cancelled ∧ c.stops = true) ∧ Healthy p r' := by
  induction n generalizing r with
  | zero =>
    unfold saturate
    split
    · next hstops => exact ⟨⟨rfl, hstops⟩, h⟩
    · refine ⟨h, fun _ hroot => ?_⟩
      cases hroot
  | succ n ih =>
    unfold saturate
    split
    · next hstops => exact ⟨⟨rfl, hstops⟩, h⟩
    simp only [ensures_bind, ensures_count, ensures_nextCandidate]
    obtain ⟨hpending, hissued⟩ := Saturation.next_suits h.units.listed h.search
    have hnext : Method.standard.next p.clauses r.units r.search =
      Saturation.next p.clauses r.units r.search := rfl
    rw [hnext]
    generalize Saturation.next p.clauses r.units r.search = issued at hpending hissued ⊢
    obtain ⟨candidate, search⟩ := issued
    cases candidate with
    | none =>
      refine ⟨⟨h.units, hpending⟩, fun _ hroot => ?_⟩
      cases hroot
    | some candidate =>
      obtain ⟨hsuits, hactive⟩ := hissued candidate rfl
      simp only [ensures_bind]
      refine Ensures.mono (ensures_infer_healthy hp ⟨h.units, hpending⟩ hready hsuits hactive) ?_
        fun _ _ => False.elim
      rintro result r₁ ⟨h₁, hready₁, hroot⟩
      cases result with
      | some root =>
        refine ⟨h₁, fun root' hroot' => ?_⟩
        obtain rfl := SearchEnd.refuted.inj hroot'
        exact hroot root rfl
      | none => exact ih h₁ hready₁

/-- Looking for a contradictory query does not fail. -/
theorem ensures_contradictoryQuery_healthy (hp : p.Resolved) {cs : List NormalizedClause}
    (hcs : ∀ c ∈ cs, c ∈ p.clauses) (h : Healthy p r) :
    Ensures (contradictoryQuery cs) r
      (fun result r' => Healthy p r' ∧
        ∀ root, result = some root → ∃ e, r'.units.get? root = some e)
      fun _ _ => False := by
  induction cs generalizing r with
  | nil => exact ⟨h, nofun⟩
  | cons c cs ih =>
    obtain ⟨hc, hrest⟩ := List.forall_mem_cons.mp hcs
    unfold contradictoryQuery
    split
    · next hquery =>
      obtain ⟨hunit, hnone⟩ := Bool.and_eq_true_iff.mp hquery
      obtain ⟨u, hu, hhead⟩ := UnitClause.exists_ofNormalized hunit
      have hknown := UnitClause.exists_arguments_of_head (hp.known c hc) hhead
      simp only [ensures_bind, hu, ensures_ok, ensures_ask]
      have href : u.isRefutation = true := by
        rw [NormalizedClause.isQuery, Option.isNone_iff_eq_none] at hnone
        rw [UnitClause.isRefutation, hhead, NormalizedClause.headRelation?, hnone]
        rfl
      split
      · simp only [ensures_bind, ensures_changeStore, ensures_pure]
        refine ⟨fun id units hrecord => ?_, fun e hrecord => ?_⟩
        · obtain ⟨hadds, rfl⟩ := Store.adds_of_recordRefutation hrecord
          have hnames : r.units.Names p r.units.size (.derived c.index []) := by
            obtain ⟨i, hi⟩ := List.getElem?_of_mem hc
            have hbody : c.body = [] := List.isEmpty_iff.mp hunit
            exact ⟨c, hp.index i c hi ▸ hi, hbody ▸ .nil⟩
          refine ⟨⟨h.units.adds hadds hknown hnames, fun d hd => ?_⟩, fun root hroot => ?_⟩
          · exact (h.search d hd).evolves hadds.evolves
          · exact Option.some.inj hroot ▸ ⟨_, hadds.get?_new⟩
        · obtain ⟨id, units, hok⟩ := r.units.exists_recordRefutation (.derived c.index []) href
          rw [hok] at hrecord
          cases hrecord
      · exact ih hrest (h.congr rfl rfl)
    · exact ih hrest h

/-- Answering for a stored contradiction fails only if the oracle finds no model for a step. -/
theorem ensures_refute_healthy (hp : p.Resolved) {root : UnitId} (h : Healthy p r)
    (hroot : ∃ e, r.units.get? root = some e) :
    Ensures (refute p root) r (fun _ r' => Healthy p r')
      fun e r' => e.IsIrreproducible p ∧ Healthy p r' := by
  simp only [refute, ensures_bind, ensures_get, ensures_work, ensures_pure]
  exact (Refutation.ofUnit_onlyStalls hp h.units hroot r.workspace).mono
    (fun _ _ _ => h.congr rfl rfl) fun _ _ he => ⟨he, h.congr rfl rfl⟩

/-- Answering for an exhausted search does not fail. -/
theorem ensures_conclude_healthy (hp : p.Resolved) (h : Healthy p r) :
    Ensures (conclude .standard p) r (fun _ r' => Healthy p r') fun _ _ => False := by
  obtain ⟨solution, hsolution, hcomplete⟩ := h.units.exists_solution r.workspace.symbols
  have hmade : Solution.ofStore Method.standard.simplifier r.workspace.symbols r.units
      p.relations = .ok solution := hsolution
  have hchecked : ∃ passed, (solution.checkNormalized p r.workspace.oracle).1 = .ok passed := by
    rcases Solution.checkAll_or fun c hc =>
      hcomplete.exists_normalizedFormula? (hp.known c hc) with htrue | ⟨hfalse, -⟩
    · exact ⟨true, htrue⟩
    · exact ⟨false, hfalse⟩
  obtain ⟨passed, hpassed⟩ := hchecked
  simp only [conclude, ensures_bind, ensures_get, hmade, ensures_ok, ensures_ask, hpassed]
  split <;> exact h.congr rfl rfl

/-- Solving fails only if it is cancelled or if the oracle finds no model for a step, and whatever
the answer is, the problem may be solved again. -/
theorem ensures_solve_healthy (hp : p.Resolved) (h : Healthy p r) :
    Ensures (solve .standard p c) r (fun _ r' => Healthy p r') fun e r' =>
      (e = .cancelled ∧ c.stops = true ∨ e.IsIrreproducible p) ∧ Healthy p r' := by
  unfold solve search
  simp only [ensures_bind, announce, ensures_modify, ensures_get]
  refine Ensures.mono (ensures_seed_healthy hp (fun _ hc => hc) (h.congr rfl rfl) rfl)
    (fun _ r₁ h₁ => ?_) fun _ _ => False.elim
  refine (ensures_saturate_healthy hp _ h₁.1 h₁.2).mono (fun result r₂ h₂ => ?_)
    fun _ _ he => ⟨.inl he.1, he.2⟩
  have hrefute {root : UnitId} {r : Run Saturation} (h : Healthy p r)
      (hroot : ∃ e, r.units.get? root = some e) :=
    (ensures_refute_healthy hp h hroot).mono (fun _ _ => id)
      fun e r' (he : e.IsIrreproducible p ∧ Healthy p r') =>
        (⟨.inr he.1, he.2⟩ : (e = .cancelled ∧ c.stops = true ∨ e.IsIrreproducible p) ∧ _)
  cases result with
  | limit => exact h₂.1
  | refuted root => exact hrefute h₂.1 (h₂.2 root rfl)
  | exhausted =>
    simp only [ensures_bind]
    refine (ensures_contradictoryQuery_healthy hp (fun _ hc => hc) h₂.1).mono
      (fun result r₃ h₃ => ?_) fun _ _ => False.elim
    cases result with
    | some root => exact hrefute h₃.1 (h₃.2 root rfl)
    | none => exact (ensures_conclude_healthy hp h₃.1).mono (fun _ _ => id) fun _ _ => False.elim

end Running

namespace Run

/-- The states in which level saturation may be asked to solve a problem: the start, what solving
has left behind, whatever the answer was, and these with any other oracle and other symbols. A run
that is cancelled on its way leaves what a run leaves that is limited to as many iterations. -/
inductive Used (p : NormalizedProblem) : Run Saturation → Prop
  | start (oracle : Oracle) : Used p (.start {} p oracle)
  | solved (c : Configuration) {r : Run Saturation} (h : Used p r) :
      Used p ((Running.solve .standard p c).run.run r).2
  | exchanged (workspace : Workspace) {r : Run Saturation} (h : Used p r) :
      Used p { r with workspace }

theorem Used.healthy (hp : p.Resolved) {r : Run Saturation} (h : r.Used p) :
    Running.Healthy p r := by
  induction h with
  | start oracle => exact ⟨.empty p, nofun⟩
  | solved c _ ih =>
    have hsolve := (Running.ensures_solve_healthy (c := c) hp ih).mono
      (fun _ _ => id) fun _ _ he => he.2
    exact hsolve.final
  | exchanged workspace _ ih => exact ih.congr rfl rfl

/-- With level saturation, projection and subsumption by implication, solving a normalized problem
fails in two ways only, however often it has been solved before: it has been cancelled, or the
oracle has not found a model for a clause in a step of a derivation. -/
theorem error_of_solve {problem : Problem} (hn : problem.normalize = .ok p)
    {r : Run Saturation} (hr : r.Used p) {c : Configuration} {e : Error}
    (he : ((Running.solve .standard p c).run.run r : Except Error Outcome × Run Saturation).1 =
      .error e) :
    e = .cancelled ∧ c.stops = true ∨ ∃ clause ∈ p.clauses, ∃ answer, answer ≠ .sat ∧
      e = .internal (.notReproducible clause.index answer) := by
  have hp := Problem.resolved_of_normalize hn
  have hsolve := Running.ensures_solve_healthy (c := c) hp (hr.healthy hp)
  unfold Ensures at hsolve
  split at hsolve
  · next heq =>
    rw [heq] at he
    cases he
  · next heq =>
    rw [heq] at he
    obtain rfl := Except.error.inj he
    exact hsolve.1

/-- The state after a run that was cancelled when it had stored its fact. -/
def cancelledOnlyZero : Run Saturation :=
  ((Running.solve .standard (.onlyZero []) { cancelled := true }).run.run
    (.start {} (.onlyZero []) { window := ⟨0, 1⟩, cap := 1 }) :
    Except Error Outcome × Run Saturation).2

theorem error_of_solve_onlyZero : cancelledOnlyZero.Used (.onlyZero []) ∧
    ∃ clause ∈ (NormalizedProblem.onlyZero []).clauses, ∃ answer, answer ≠ .sat ∧
      ((Running.solve .standard (.onlyZero []) {}).run.run cancelledOnlyZero :
        Except Error Outcome × Run Saturation).1 =
          .error (.internal (.notReproducible clause.index answer)) := by
  have hn : (Problem.onlyZero none).normalize = .ok (.onlyZero []) := rfl
  have hr : cancelledOnlyZero.Used (.onlyZero []) := .solved _ (.start _)
  have he : ((Running.solve .standard (.onlyZero []) {}).run.run cancelledOnlyZero :
      Except Error Outcome × Run Saturation).1 = .error (.internal (.notReproducible 1 .unknown)) :=
    by cbv
  refine ⟨hr, ?_⟩
  rcases error_of_solve hn hr he with ⟨hcancelled, -⟩ | ⟨clause, hclause, answer, hanswer, heq⟩
  · cases hcancelled
  · exact ⟨clause, hclause, answer, hanswer, heq ▸ he⟩

end Run

end HornSaturation
