import HornSaturation.Proofs.Refutation.Nesting
import HornSaturation.Proofs.Run.Closure
import HornSaturation.Proofs.Run.Journal
import HornSaturation.Proofs.Solution.Nesting
import HornSaturation.Proofs.Unit.Consistency
import HornSaturation.Reader.Commands

/-!
# A run stays within the relations of its constraints

Nothing that a run does brings in a relation: the units that it derives and stores, and the formulas
that it asks its oracle about, apply only relations that the constraints of its problem apply.
-/

namespace HornSaturation

variable {S : RelationId → Prop} {o : Oracle} {α σ : Type}

section Steps

/-- Stored units apply certain relations only, and so do the formulas that the oracle has been asked
about since an earlier state. -/
structure Run.Confined (S : RelationId → Prop) (o : Oracle) (r : Run σ) : Prop where
  units : r.units.AppliesOnly S
  workspace : r.workspace.Confined S o

variable {P : α → Prop}

namespace Running

theorem maintains_work {step : Working α} (h : Maintains (Workspace.Confined S o) P step) :
    Maintains (Run.Confined S o) P (work step : Running σ α) := fun r hr =>
  ensures_work.mpr <| (h r.workspace hr.workspace).mono (fun _ _ h => ⟨⟨hr.units, h.1⟩, h.2⟩)
    fun _ _ h => ⟨hr.units, h⟩

theorem maintains_ask {question : Oracle → α × Oracle}
    (h : ∀ o : Oracle, o.AsksOnly (Term.AppliesOnly S) (question o).2) :
    Maintains (Run.Confined S o) (fun _ => True) (ask question : Running σ α) :=
  maintains_work (Working.maintains_ask fun _ hw => hw.trans (h _))

theorem maintains_report (e : Event) :
    Maintains (Run.Confined S o) (fun _ => True) (report e : Running σ Unit) := fun _ hr =>
  ⟨⟨hr.units, hr.workspace⟩, trivial⟩

theorem maintains_count (f : Statistics → Statistics) :
    Maintains (Run.Confined S o) (fun _ => True) (count f : Running σ Unit) := fun _ hr =>
  ⟨⟨hr.units, hr.workspace⟩, trivial⟩

theorem maintains_changeStore {f : Store → Except Error (α × Store)}
    (h : ∀ store a store', store.AppliesOnly S → f store = .ok (a, store') →
      store'.AppliesOnly S) :
    Maintains (Run.Confined S o) (fun _ => True) (changeStore f : Running σ α) := fun r hr =>
  ensures_changeStore.mpr ⟨fun a units heq => ⟨⟨h r.units a units hr.units heq, hr.workspace⟩,
    trivial⟩, fun _ _ => hr⟩

end Running

end Steps

namespace Store.AppliesOnly

variable {store store' : Store} {u : UnitClause} {pr : Provenance} {id : UnitId}

theorem empty (relations : List Relation) : ({ relations } : Store).AppliesOnly S := by
  intro id e he
  simp [Store.get?] at he

theorem adds {e : StoredUnit} (h : store.AppliesOnly S) (hadds : store.Adds e store')
    (he : e.unit.constraint.AppliesOnly S) : store'.AppliesOnly S := by
  intro i e' he'
  rw [hadds.entry] at he'
  split at he'
  · exact Option.some.inj he' ▸ he
  · exact h i e' he'

theorem retire (h : store.AppliesOnly S) (hretire : store.retire id = .ok store') :
    store'.AppliesOnly S := by
  obtain ⟨e, he, ⟨-, rfl⟩ | ⟨-, rfl⟩⟩ := retire_cases hretire
  · exact h
  · intro i e' he'
    rw [Store.get?, Array.getElem?_setIfInBounds] at he'
    split at he'
    · split at he'
      · exact Option.some.inj he' ▸ h id e he
      · cases he'
    · exact h i e' he'

theorem insert (h : store.AppliesOnly S) (hu : u.constraint.AppliesOnly S)
    (hinsert : store.insert u pr = .ok (id, store')) : store'.AppliesOnly S :=
  h.adds (adds_of_insert hinsert).1 hu

theorem recordRefutation (h : store.AppliesOnly S) (hu : u.constraint.AppliesOnly S)
    (hrecord : store.recordRefutation u pr = .ok (id, store')) : store'.AppliesOnly S :=
  h.adds (adds_of_recordRefutation hrecord).1 hu

end Store.AppliesOnly

/-- Constraints are simplified and redundant units are found without bringing in relations. -/
structure Method.Conservative (m : Method σ) : Prop where
  simplifier : m.simplifier.Conservative
  subsumption : m.subsumption.Conservative

section Settling

variable {m : Method σ} {p : NormalizedProblem} {u : UnitClause} {pr : Provenance}

/-- A unit that a run settles applies no relations but those of the constraints. -/
theorem Offered.appliesOnly {store : Store} (hm : m.Conservative) (hp : p.AppliesOnly S)
    (hstore : store.AppliesOnly S) (h : Offered m p store u pr) : u.constraint.AppliesOnly S := by
  cases h with
  | @fact c u₀ _ s s' hc hhead hu₀ hu =>
    have hu₀ : u₀.constraint.AppliesOnly S :=
      UnitClause.ofNormalized_constraint hu₀ ▸ hp c hc
    exact ((maintains_reduceUnit hm.simplifier hu₀ s trivial).of_ok hu).2
  | @resolvent c nucleus electrons _ s s' hpremises hu =>
    obtain ⟨hclause, -, -, hus⟩ := Running.premises_spec hpremises
    have hnucleus := hp nucleus (List.mem_of_getElem? hclause)
    have helectrons : ∀ w ∈ electrons, w.constraint.AppliesOnly S := by
      intro w hw
      obtain ⟨i, -, e, he, rfl⟩ := hus.flip.exists_right hw
      exact hstore i e he
    exact ((maintains_resolve hm.simplifier hnucleus helectrons s trivial).of_ok hu).2

namespace Running

theorem maintains_retireAll (ids : List UnitId) :
    Maintains (Run.Confined S o) (fun _ => True) (retireAll ids : Running σ Unit) := by
  induction ids with
  | nil => exact .pure trivial
  | cons id ids ih =>
    refine (maintains_changeStore fun store a store' hstore heq => ?_).bind fun _ _ => ih
    obtain ⟨left, hleft, heq⟩ := Except.bind_eq_ok.mp heq
    obtain ⟨-, rfl⟩ := Prod.mk.inj (Except.ok.inj heq)
    exact hstore.retire hleft

/-- Settling a unit. -/
theorem maintains_settle (hm : m.Conservative) (hu : u.constraint.AppliesOnly S) :
    Maintains (Run.Confined S o) (fun _ => True) (settle m u pr) := by
  have hinsert : Maintains (Run.Confined S o) (fun _ => True)
      (changeStore (·.insert u pr) : Running σ UnitId) :=
    maintains_changeStore fun _ _ _ hstore => hstore.insert hu
  have hrecord : Maintains (Run.Confined S o) (fun _ => True)
      (changeStore (·.recordRefutation u pr) : Running σ UnitId) :=
    maintains_changeStore fun _ _ _ hstore => hstore.recordRefutation hu
  unfold settle
  refine Maintains.get.bind fun r hr => ?_
  refine Maintains.bind
    (maintains_ask (asksOnly_classify hm.subsumption hr.units hu)) fun cls _ => ?_
  cases cls with
  | contradiction => exact hrecord.bind fun _ _ => .pure trivial
  | infeasible => exact (maintains_count _).bind fun _ _ =>
      (maintains_report _).bind fun _ _ => .pure trivial
  | forwardSubsumed => exact (maintains_count _).bind fun _ _ =>
      (maintains_report _).bind fun _ _ => .pure trivial
  | new removed =>
    refine (maintains_retireAll removed).bind fun _ _ => ?_
    have hstored : Maintains (Run.Confined S o) (fun _ => True) (do
        let id ← changeStore (·.insert u pr)
        count fun s => { s with inserted := s.inserted + 1 }
        if m.subsumption.reported then report (.reported id)
        report (.inserted id u)
        return none : Running σ (Option UnitId)) := by
      refine hinsert.bind fun id _ => (maintains_count _).bind fun _ _ => ?_
      have hlast : Maintains (Run.Confined S o) (fun _ => True) (do
          report (.inserted id u)
          return none : Running σ (Option UnitId)) :=
        (maintains_report _).bind fun _ _ => .pure trivial
      dsimp only
      split
      · exact (maintains_report _).bind fun _ _ => hlast
      · exact hlast
    dsimp only
    split
    · exact (maintains_count _).bind fun _ _ => (maintains_report _).bind fun _ _ => hstored
    · exact hstored

end Running

end Settling

namespace Running

variable {m : Method σ} {p : NormalizedProblem}

/-- Storing facts. -/
theorem maintains_seed (hm : m.Conservative) (hp : p.AppliesOnly S) {cs : List NormalizedClause}
    (hcs : ∀ c ∈ cs, c ∈ p.clauses) :
    Maintains (Run.Confined S o) (fun _ => True) (seed m p cs) := by
  induction cs with
  | nil => exact .pure trivial
  | cons c cs ih =>
    obtain ⟨hc, hrest⟩ := List.forall_mem_cons.mp hcs
    unfold seed
    split
    · refine .liftBind fun u hu => ?_
      have hu : u.constraint.AppliesOnly S := UnitClause.ofNormalized_constraint hu ▸ hp c hc
      refine (maintains_work (Working.maintains_allocate (fun _ _ => id)
        (maintains_reduceUnit hm.simplifier hu))).bind fun u hu => ?_
      exact (maintains_settle hm hu).bind fun _ _ => ih hrest
    · exact ih hrest

/-- Making an inference. -/
theorem maintains_infer (hm : m.Conservative) (hp : p.AppliesOnly S) (trace : Bool)
    (c : Candidate) : Maintains (Run.Confined S o) (fun _ => True) (infer m p trace c) := by
  refine Maintains.get.bind fun r hr => ?_
  refine .liftBind ?_
  rintro ⟨nucleus, electrons⟩ hpremises
  obtain ⟨hclause, -, -, hus⟩ := premises_spec hpremises
  have helectrons : ∀ w ∈ electrons, w.constraint.AppliesOnly S := by
    intro w hw
    obtain ⟨i, -, e, he, rfl⟩ := hus.flip.exists_right hw
    exact hr.units i e he
  have hnucleus := hp nucleus (List.mem_of_getElem? hclause)
  refine (maintains_work (Working.maintains_allocate (fun _ _ => id)
    (maintains_resolve hm.simplifier hnucleus helectrons))).bind fun u hu => ?_
  refine (maintains_count _).bind fun _ _ => ?_
  dsimp only
  split
  · exact Maintains.get.bind fun _ _ => (maintains_report _).bind fun _ _ =>
      maintains_settle hm hu
  · exact maintains_settle hm hu

theorem maintains_nextCandidate :
    Maintains (Run.Confined S o) (fun _ => True) (nextCandidate m p) := fun _ hr =>
  ⟨⟨hr.units, hr.workspace⟩, trivial⟩

/-- Searching on for a contradiction. -/
theorem maintains_saturate (hm : m.Conservative) (hp : p.AppliesOnly S) (c : Configuration)
    (n : Nat) : Maintains (Run.Confined S o) (fun _ => True) (saturate m p c n) := by
  induction n with
  | zero =>
    unfold saturate
    split
    · exact .throw _
    · exact .pure trivial
  | succ n ih =>
    unfold saturate
    dsimp only
    split
    · exact .throwBind _ _
    refine (maintains_count _).bind fun _ _ => maintains_nextCandidate.bind fun candidate _ => ?_
    cases candidate with
    | none => exact .pure trivial
    | some candidate =>
      refine (maintains_infer hm hp c.trace candidate).bind fun root _ => ?_
      cases root with
      | some root => exact .pure trivial
      | none => exact ih

theorem maintains_contradictoryQuery (hp : p.AppliesOnly S) {cs : List NormalizedClause}
    (hcs : ∀ c ∈ cs, c ∈ p.clauses) :
    Maintains (Run.Confined S o) (fun _ => True)
      (contradictoryQuery cs : Running σ (Option UnitId)) := by
  induction cs with
  | nil => exact .pure trivial
  | cons c cs ih =>
    obtain ⟨hc, hrest⟩ := List.forall_mem_cons.mp hcs
    unfold contradictoryQuery
    split
    · refine .liftBind fun u hu => ?_
      have hu : u.constraint.AppliesOnly S := UnitClause.ofNormalized_constraint hu ▸ hp c hc
      refine (maintains_ask (asksOnly_hasContradiction hu)).bind fun found _ => ?_
      split
      · exact Maintains.bind
          (maintains_changeStore fun _ _ _ hstore => hstore.recordRefutation hu)
          fun _ _ => .pure trivial
      · exact ih hrest
    · exact ih hrest

/-- Solving a problem. The solution that is found applies no other relations, either. -/
theorem maintains_solve (hm : m.Conservative) (hp : p.AppliesOnly S) (c : Configuration) :
    Maintains (Run.Confined S o) (fun outcome => ∀ s, outcome = .sat s → s.AppliesOnly S)
      (solve m p c) := by
  have hannounce : Maintains (Run.Confined S o) (fun _ => True) (announce p : Running σ Unit) :=
    fun r hr => ⟨⟨hr.units, hr.workspace.trans (Oracle.asksOnly_declare _ _ _)⟩, trivial⟩
  have hsearch : Maintains (Run.Confined S o) (fun _ => True) (search m p c) :=
    hannounce.bind fun _ _ => (maintains_seed hm hp fun _ hc => hc).bind fun _ _ =>
      Maintains.get.bind fun _ _ => maintains_saturate hm hp c _
  have hrefute (root : UnitId) : Maintains (Run.Confined S o)
      (fun outcome => ∀ s, outcome = .sat s → s.AppliesOnly S)
      (refute p root : Running σ Outcome) := by
    refine Maintains.get.bind fun r hr => ?_
    have hbuild : Maintains (Workspace.Confined S o) (fun _ => True)
        (Refutation.ofUnit r.units p root) :=
      Refutation.maintains_ofUnit Workspace.lasting_confined hp hr.units root
    exact (maintains_work hbuild).bind fun _ _ => .pure (by simp)
  have hconclude : Maintains (Run.Confined S o)
      (fun outcome => ∀ s, outcome = .sat s → s.AppliesOnly S) (conclude m p) := by
    refine Maintains.get.bind fun r hr => ?_
    refine .liftBind fun s hs => ?_
    have hs := Solution.appliesOnly_ofStore hm.simplifier hr.units hs
    refine (maintains_ask (hs.asksOnly_checkNormalized hp)).bind fun result _ => ?_
    refine .liftBind fun passed _ => ?_
    split
    · refine .pure fun s' hs' => ?_
      exact Outcome.sat.inj hs' ▸ hs
    · exact .pure (by simp)
  refine hsearch.bind fun result _ => ?_
  cases result with
  | limit => exact .pure (by simp)
  | refuted root => exact hrefute root
  | exhausted =>
    refine (maintains_contradictoryQuery hp fun _ hc => hc).bind fun root _ => ?_
    cases root with
    | some root => exact hrefute root
    | none => exact hconclude

end Running

namespace Run

variable {m : Method σ} {p : NormalizedProblem} {r r' : Run σ} {es : List Entry}

theorem Writes.appliesOnly (hm : m.Conservative) (hp : p.AppliesOnly S)
    (hr : r.units.AppliesOnly S) (h : r.Writes m p es r') :
    r'.units.AppliesOnly S ∧ ∀ e ∈ es, e.unit.constraint.AppliesOnly S := by
  cases h with
  | @settled r₁ u pr hoffered hunits horacle hcounted =>
    have hu := hoffered.appliesOnly hm hp hr
    have hr₁ : r₁.Confined S r₁.workspace.oracle := ⟨hunits ▸ hr, .refl _⟩
    have hsettle : Maintains (Run.Confined S r₁.workspace.oracle) (fun _ => True)
        (Running.settle m u pr) := Running.maintains_settle hm hu
    have hfinal := (hsettle r₁ hr₁).mono (fun _ _ h => h.1.units) fun _ _ h => h.units
    exact ⟨hfinal.final, List.forall_mem_singleton.mpr hu⟩
  | recorded hc hu hrecord =>
    have hu := UnitClause.ofNormalized_constraint hu ▸ hp _ hc
    exact ⟨hr.recordRefutation hu hrecord, List.forall_mem_singleton.mpr hu⟩
  | aside hunits hl hcounted => exact ⟨hunits ▸ hr, by simp⟩

/-- By induction on the steps of a run. -/
theorem Journals.appliesOnly (hm : m.Conservative) (hp : p.AppliesOnly S)
    (hr : r.units.AppliesOnly S) (h : r.Journals m p es r') :
    r'.units.AppliesOnly S ∧ ∀ e ∈ es, e.unit.constraint.AppliesOnly S := by
  induction h with
  | refl => exact ⟨hr, by simp⟩
  | tail _ hstep ih =>
    obtain ⟨hr', hes⟩ := ih
    obtain ⟨hr'', hes'⟩ := hstep.appliesOnly hm hp hr'
    exact ⟨hr'', List.forall_mem_append.mpr ⟨hes, hes'⟩⟩

end Run

/-- A method that consists of the simplifiers and the searches for redundant units that there are,
with any search strategy. -/
structure Method.IsBuiltIn (m : Method σ) : Prop where
  simplifier : m.simplifier = Term.project ∨ m.simplifier = Term.keep
  subsumption : m.subsumption = .byImplication ∨ m.subsumption = .never

theorem Method.IsBuiltIn.conservative {m : Method σ} (hm : m.IsBuiltIn) : m.Conservative := by
  constructor
  · rcases hm.simplifier with h | h <;> rw [h]
    · exact Term.project_conservative
    · exact Term.keep_conservative
  · rcases hm.subsumption with h | h <;> rw [h]
    · exact Subsumption.byImplication_conservative
    · exact Subsumption.never_conservative

/-- The constraints of an accepted problem are refused if they contain a relation application, but
arguments are not: a normalized constraint contains an application exactly if an argument of the
clause does, and it applies the relations that are applied in arguments. Nothing else is applied in
the units that a run derives and stores, and in the formulas that the oracle is asked about while
the problem is solved and while an answer is checked. If no argument contains an application, `S` is
true of no relation, and none of all these formulas contains one. -/
theorem Problem.applications_from_arguments {p : Problem} {np : NormalizedProblem}
    (h : p.normalize = .ok np) :
    (np.clauses.length = p.clauses.length ∧
      ∀ (i : Nat) (c : Clause), p.clauses[i]? = some c → ∃ nc, np.clauses[i]? = some nc ∧
        (∀ r, nc.constraint.Applies r ↔ c.Nests r) ∧
        (nc.constraint.containsApp = true ↔
          ∃ a ∈ c.applications, ∃ t ∈ a.args, t.containsApp = true)) ∧
    ∀ S : RelationId → Prop, (∀ c ∈ p.clauses, ∀ r, c.Nests r → S r) →
      ∀ {σ : Type} (m : Method σ), m.IsBuiltIn →
      ∀ (c : Configuration) (r : Run σ), r.units.AppliesOnly S →
      ∀ result r', (Running.solve m np c).run.run r = (result, r') →
        r'.units.AppliesOnly S ∧
        (∃ es, r.Journals m np es r' ∧ ∀ e ∈ es, e.unit.constraint.AppliesOnly S) ∧
        r.workspace.oracle.AsksOnly (Term.AppliesOnly S) r'.workspace.oracle ∧
        (∀ s, result = .ok (.sat s) → ∀ o : Oracle,
          o.AsksOnly (Term.AppliesOnly S) (s.check p o).2) ∧
        ∀ (refutation : Refutation) (o : Oracle),
          o.AsksOnly (Term.AppliesOnly S) (refutation.check np o).2 := by
  obtain ⟨-, -, hlength, hclauses⟩ := normalize_spec h
  refine ⟨⟨hlength, fun i c hc => ?_⟩, fun S hS σ m hm c r hr result r' hrun => ?_⟩
  · obtain ⟨nc, hnc, happlies⟩ := applies_iff_of_normalize h i hc
    refine ⟨nc, hnc, happlies, ?_⟩
    simp only [Term.containsApp_iff, happlies, Clause.Nests]
    constructor
    · rintro ⟨r, a, ha, t, ht, hr⟩
      exact ⟨a, ha, t, ht, r, hr⟩
    · rintro ⟨a, ha, t, ht, r, hr⟩
      exact ⟨r, a, ha, t, ht, hr⟩
  have hp : np.AppliesOnly S := by
    intro nc hmem r hr
    obtain ⟨i, hnc⟩ := List.getElem?_of_mem hmem
    obtain ⟨c, hc, hone⟩ := exists_clause_of_normalize h hnc
    obtain ⟨nc', hnc', happlies⟩ := applies_iff_of_normalize h i hc
    obtain rfl := Option.some.inj (hnc.symm.trans hnc')
    exact hS c (List.mem_of_getElem? hc) r ((happlies r).mp hr)
  have hsolve := Running.maintains_solve hm.conservative hp c r ⟨hr, .refl _⟩
  obtain ⟨es, hes⟩ := (Running.journaling_solve (m := m) (p := np) c).journals r
  rw [hrun] at hes
  obtain ⟨hr', hentries⟩ := hes.appliesOnly hm.conservative hp hr
  refine ⟨hr', ⟨es, hes, hentries⟩, ?_, fun s hs o => ?_, fun refutation o =>
    refutation.asksOnly_check hp o⟩
  · have hconfined := hsolve.mono (fun _ _ h => h.1.workspace) fun _ _ h => h.workspace
    have hfinal := hconfined.final
    rwa [hrun] at hfinal
  · have hsolution := (hsolve.of_ok (hs ▸ hrun)).2 s rfl
    refine hsolution.asksOnly_check (fun c hc => ?_) (fun c hc a ha t ht r hr => ?_) o
    · obtain ⟨i, hi⟩ := List.getElem?_of_mem hc
      obtain ⟨nc, -, hone⟩ := hclauses i c hi
      exact Clause.appliesOnly_condition hone S
    · exact hS c hc r ⟨a, ha, t, ht, hr⟩

theorem applications_from_arguments_threeIsPositive :
    Problem.threeIsPositive.normalize = .ok .threeIsPositive ∧
    ∃ result r', (Running.solve .standard .threeIsPositive {}).run.run
        (.start {} .threeIsPositive { window := ⟨-4, 4⟩, cap := 100 }) = (result, r') ∧
      (∀ c ∈ NormalizedProblem.threeIsPositive.clauses, c.constraint.containsApp = false) ∧
      (∀ id e, r'.units.get? id = some e → e.unit.constraint.containsApp = false) ∧
      r'.workspace.oracle.asked ≠ [] ∧
      ∀ ts ∈ r'.workspace.oracle.asked, ∀ t ∈ ts, t.containsApp = false := by
  have hn : Problem.threeIsPositive.normalize = .ok .threeIsPositive := rfl
  let r : Run Saturation := .start {} .threeIsPositive { window := ⟨-4, 4⟩, cap := 100 }
  have hnested : ∀ c ∈ Problem.threeIsPositive.clauses, ∀ r, c.Nests r → False := by
    intro c hc
    have hargs : ∀ c ∈ Problem.threeIsPositive.clauses, ∀ a ∈ c.applications, ∀ t ∈ a.args,
        t.containsApp = false := by decide
    exact Clause.not_nests_iff.mpr (hargs c hc)
  have hm : Method.standard.IsBuiltIn := ⟨.inl rfl, .inl rfl⟩
  obtain ⟨-, hruns⟩ := Problem.applications_from_arguments hn
  obtain ⟨hunits, -, hasks, -⟩ := hruns _ hnested .standard hm {} r (.empty _) _ _ rfl
  obtain ⟨-, log, hlog, hall⟩ := hasks
  refine ⟨hn, _, _, rfl, by decide, fun id e he => ?_, ?_, fun ts hts t ht => ?_⟩
  · exact Term.containsApp_eq_false.mpr (hunits id e he)
  · cbv
    simp
  · rw [hlog] at hts
    exact Term.containsApp_eq_false.mpr ((hall ts hts t ht).resolve_left List.not_mem_nil)

/-- A rule for an atom whose argument is an application of another relation. -/
def Problem.appliedArgument : Problem where
  relations := [⟨0, "Q", [.int]⟩, ⟨1, "P", [.bool]⟩]
  clauses := [⟨[], none, some ⟨1, [.app "Q" 0 [.int 1]]⟩⟩]

/-- The application is accepted, and it stays in the normalized constraint, in the unit that is
stored and in the formula that the oracle is asked about. -/
theorem application_kept_appliedArgument :
    Problem.read "(declare-rel Q(Int))(declare-rel P(Bool))(rule(P(Q 1)))" =
      .ok .appliedArgument ∧
    ∃ np nc r', Problem.appliedArgument.normalize = .ok np ∧ np.clauses = [nc] ∧
      nc.constraint.containsApp = true ∧
      ((Running.solve .standard np {}).run.run
        (.start {} np { window := ⟨-4, 4⟩, cap := 100 })).2 = r' ∧
      (∃ e, r'.units.get? 0 = some e ∧ e.unit.constraint.containsApp = true) ∧
      ∃ ts ∈ r'.workspace.oracle.asked, ∃ t ∈ ts, t.containsApp = true := by
  let t : Term := .op .eq [.var ⟨"P@0_0", .bool⟩, .app "Q" 0 [.int 1]]
  let nc : NormalizedClause := ⟨0, [], some ⟨1, 0⟩, t⟩
  let np : NormalizedProblem := ⟨Problem.appliedArgument.relations, [nc]⟩
  let e : StoredUnit := ⟨⟨some 1, .positive, 0, t⟩, .fact 0, true⟩
  refine ⟨by cbv, np, nc, _, by cbv, rfl, by decide, rfl, ⟨e, by cbv, by decide⟩, [t], ?_, t, ?_⟩
  · cbv
    exact .head _
  · decide

end HornSaturation
