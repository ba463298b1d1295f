import HornSaturation.Proofs.Run.Solving

/-!
# The journal of a run

Every unit that a run settles is an entry of its journal, with its provenance and its class, and so
is every contradictory query that it records. Between two entries the stored units stay as they are,
and nothing is counted but iterations. Solving writes such a journal, whatever the method, the
oracle and the answer are, and the facts among its entries are those of the problem, in the order of
the clauses.
-/

namespace HornSaturation

/-- A unit that a run has settled or recorded, with its class. -/
structure Entry where
  unit : UnitClause
  provenance : Provenance
  classification : Classification

/-- The clause of an entry for a fact. -/
def Entry.fact? (e : Entry) : Option Nat :=
  match e.provenance with
  | .fact clause => some clause
  | .derived _ _ => none

/-- The facts among the clauses of a list. -/
def factsOf (cs : List NormalizedClause) : List Nat :=
  (cs.filter fun c => c.isUnit && !c.isQuery).map (·.index)

/-- What has been counted when a unit comes to be settled: inferences are counted before. -/
def Statistics.offered (s : Statistics) : Provenance → Statistics
  | .fact _ => s
  | .derived _ _ => { s with derivations := s.derivations + 1 }

variable {σ α β : Type} {m : Method σ} {p : NormalizedProblem} {r r' r'' : Run σ}
  {es es' : List Entry}

namespace Run

/-- One step of a run, with what it adds to the journal. -/
inductive Writes (m : Method σ) (p : NormalizedProblem) (r : Run σ) : List Entry → Run σ → Prop
  /-- A unit has been settled, with or without success. -/
  | settled {r₁ : Run σ} {u : UnitClause} {pr : Provenance} (h : Offered m p r.units u pr)
      (hunits : r₁.units = r.units) (horacle : r₁.workspace.oracle = r.workspace.oracle)
      (hcounted : r₁.statistics = r.statistics.offered pr) :
      Writes m p r [⟨u, pr, (classify m.subsumption r₁.units u r₁.workspace.oracle).1⟩]
        ((Running.settle m u pr).run.run r₁).2
  /-- A clause without body and head has been recorded as a contradiction. -/
  | recorded {c : NormalizedClause} {u : UnitClause} {id : UnitId} {units : Store}
      (hc : c ∈ p.clauses) (hu : UnitClause.ofNormalized c = .ok u)
      (h : r.units.recordRefutation u (.derived c.index []) = .ok (id, units)) :
      Writes m p r [⟨u, .derived c.index [], .contradiction⟩] { r with units }
  /-- Nothing has happened to the stored units, and nothing but an iteration has been counted. -/
  | aside {r' : Run σ} (hunits : r'.units = r.units)
      (hl : r.workspace.oracle.Later r'.workspace.oracle)
      (hcounted : r'.statistics = { r.statistics with iterations := r'.statistics.iterations }) :
      Writes m p r [] r'

/-- Any number of steps of a run, with what they add to the journal. -/
inductive Journals (m : Method σ) (p : NormalizedProblem) (r : Run σ) : List Entry → Run σ → Prop
  | refl : Journals m p r [] r
  | tail {r' r'' : Run σ} {es es' : List Entry} (h : Journals m p r es r')
      (hstep : r'.Writes m p es' r'') : Journals m p r (es ++ es') r''

theorem Writes.journals (h : r.Writes m p es r') : r.Journals m p es r' := .tail .refl h

theorem Journals.trans (h : r.Journals m p es r') (h' : r'.Journals m p es' r'') :
    r.Journals m p (es ++ es') r'' := by
  induction h' with
  | refl => rwa [List.append_nil]
  | tail _ hstep ih => exact List.append_assoc _ _ _ ▸ ih.tail hstep

end Run

namespace Running

/-- A part of a run writes a journal, in which it gets through certain facts if it succeeds, and
through the first of them if it fails. -/
def Journaling (m : Method σ) (p : NormalizedProblem) (facts : List Nat) (x : Running σ α) : Prop :=
  ∀ r, Ensures x r
    (fun _ r' => ∃ es, r.Journals m p es r' ∧ es.filterMap Entry.fact? = facts)
    fun _ r' => ∃ es, r.Journals m p es r' ∧ es.filterMap Entry.fact? <+: facts

namespace Journaling

variable {facts facts' : List Nat}

theorem pure (a : α) : Journaling m p [] (pure a : Running σ α) := fun _ => ⟨[], .refl, rfl⟩

theorem throw (e : Error) : Journaling m p [] (throw e : Running σ α) := fun _ =>
  ⟨[], .refl, List.prefix_rfl⟩

theorem bind {x : Running σ α} {f : α → Running σ β} (hx : Journaling m p facts x)
    (hf : ∀ a, Journaling m p facts' (f a)) : Journaling m p (facts ++ facts') (x >>= f) := by
  intro r
  rw [ensures_bind]
  refine (hx r).mono ?_ ?_
  · rintro a r₁ ⟨es, hes, rfl⟩
    refine (hf a r₁).mono ?_ ?_
    · rintro b r' ⟨es', hes', rfl⟩
      exact ⟨es ++ es', hes.trans hes', List.filterMap_append⟩
    · rintro e r' ⟨es', hes', hfacts⟩
      refine ⟨es ++ es', hes.trans hes', ?_⟩
      rw [List.filterMap_append]
      exact (List.prefix_append_right_inj _).mpr hfacts
  · rintro e r' ⟨es, hes, hfacts⟩
    exact ⟨es, hes, hfacts.trans (List.prefix_append facts facts')⟩

theorem bind_left {x : Running σ α} {f : α → Running σ β} (hx : Journaling m p [] x)
    (hf : ∀ a, Journaling m p facts (f a)) : Journaling m p facts (x >>= f) := hx.bind hf

theorem bind_right {x : Running σ α} {f : α → Running σ β} (hx : Journaling m p facts x)
    (hf : ∀ a, Journaling m p [] (f a)) : Journaling m p facts (x >>= f) := by
  have h := hx.bind hf
  rwa [List.append_nil] at h

theorem lift_bind {x : Except Error α} {f : α → Running σ β}
    (hf : ∀ a, x = .ok a → Journaling m p facts (f a)) :
    Journaling m p facts (liftM x >>= f) := by
  cases x with
  | error e => exact fun _ => ⟨[], .refl, List.nil_prefix⟩
  | ok a => exact hf a rfl

/-- A part that touches no stored unit, only asks the oracle and counts nothing but iterations. -/
theorem aside {x : Running σ α} (h : ∀ r : Run σ, Ensures x r
      (fun _ r' => r.Writes m p [] r') fun _ r' => r.Writes m p [] r') :
    Journaling m p [] x := fun r =>
  (h r).mono (fun _ _ h => ⟨[], h.journals, rfl⟩) fun _ _ h => ⟨[], h.journals, List.prefix_rfl⟩

theorem ask {question : Oracle → α × Oracle} (h : ∀ o : Oracle, o.Later (question o).2) :
    Journaling m p [] (ask question : Running σ α) := aside fun _ => .aside rfl (h _) rfl

theorem get : Journaling m p [] (get : Running σ (Run σ)) := fun _ => ⟨[], .refl, rfl⟩

/-- What a part of a run writes, whether it succeeds or fails. -/
theorem journals {x : Running σ α} (h : Journaling m p facts x) (r : Run σ) :
    ∃ es, r.Journals m p es (x.run.run r).2 := by
  have hwritten : Ensures x r (fun _ r' => ∃ es, r.Journals m p es r')
      fun _ r' => ∃ es, r.Journals m p es r' :=
    (h r).mono (fun _ _ h => h.imp fun _ h => h.1) fun _ _ h => h.imp fun _ h => h.1
  exact hwritten.final

end Journaling

/-- Settling an offered unit writes its entry. -/
private theorem journals_settle {r₁ : Run σ} {u : UnitClause} {pr : Provenance}
    (h : Offered m p r.units u pr) (hunits : r₁.units = r.units)
    (horacle : r₁.workspace.oracle = r.workspace.oracle)
    (hcounted : r₁.statistics = r.statistics.offered pr) :
    ∃ cls, Ensures (settle m u pr) r₁ (fun _ r' => r.Journals m p [⟨u, pr, cls⟩] r')
      fun _ r' => r.Journals m p [⟨u, pr, cls⟩] r' := by
  have hstep := (Run.Writes.settled h hunits horacle hcounted).journals
  refine ⟨(classify m.subsumption r₁.units u r₁.workspace.oracle).1,
    ensures_run.mono (fun a r' heq => ?_) fun e r' heq => ?_⟩
  all_goals
    rw [heq] at hstep
    exact hstep

/-- Storing facts writes an entry for each of them. -/
theorem journaling_seed {cs : List NormalizedClause} (hcs : ∀ c ∈ cs, c ∈ p.clauses) :
    Journaling m p (factsOf cs) (seed m p cs) := by
  induction cs with
  | nil => exact .pure ()
  | cons c cs ih =>
    obtain ⟨hc, hrest⟩ := List.forall_mem_cons.mp hcs
    unfold seed
    split
    · next hfact =>
      have hfacts : factsOf (c :: cs) = [c.index] ++ factsOf cs := by
        simp only [factsOf, List.filter_cons, hfact, if_true, List.map_cons, List.singleton_append]
      have hhead : c.head ≠ none := by
        simpa [NormalizedClause.isQuery, Option.ne_none_iff_isSome] using
          (Bool.and_eq_true_iff.mp hfact).2
      have hfirst : Journaling m p [c.index] (do
          let u ← liftM (UnitClause.ofNormalized c)
          let u ← work (.allocate (reduceUnit m.simplifier p.relations u))
          settle m u (.fact c.index)) := by
        refine .lift_bind fun u₀ hu₀ r => ?_
        simp only [ensures_bind, ensures_work, ensures_allocate]
        refine ensures_run.mono (fun u s hu => ?_) fun _ s _ =>
          ⟨[], Run.Writes.journals (.aside rfl (.refl _) rfl), List.nil_prefix⟩
        have hoffered : Offered m p r.units u (.fact c.index) := .fact hc hhead hu₀ hu
        set r₁ : Run σ := { r with workspace := { r.workspace with symbols := s } }
        have hunits : r₁.units = r.units := rfl
        obtain ⟨cls, hsettle⟩ := journals_settle hoffered hunits rfl rfl
        exact hsettle.mono (fun _ _ h => ⟨_, h, rfl⟩) fun _ _ h => ⟨_, h, List.prefix_rfl⟩
      rw [hfacts]
      simpa only [bind_assoc] using hfirst.bind fun _ => ih hrest
    · next hfact =>
      have hfacts : factsOf (c :: cs) = factsOf cs := by
        rw [Bool.not_eq_true] at hfact
        simp only [factsOf, List.filter_cons, hfact, Bool.false_eq_true, if_false]
      exact hfacts ▸ ih hrest

/-- Making an inference writes an entry for the unit that it derives. -/
theorem journaling_infer (trace : Bool) (c : Candidate) :
    Journaling m p [] (infer m p trace c) := by
  intro r
  unfold infer
  simp only [ensures_bind, ensures_get, ensures_liftM, ensures_work, ensures_allocate,
    ensures_count]
  refine ⟨?_, fun _ _ => ⟨[], .refl, List.prefix_rfl⟩⟩
  rintro ⟨nucleus, electrons⟩ hpremises
  refine ensures_run.mono (fun u s hu => ?_) fun _ _ _ =>
    ⟨[], Run.Writes.journals (.aside rfl (.refl _) rfl), List.prefix_rfl⟩
  have hoffered : Offered m p r.units u (.derived c.nucleus c.electrons) :=
    .resolvent hpremises hu
  have hsettle {r₁ : Run σ} (hunits : r₁.units = r.units)
      (horacle : r₁.workspace.oracle = r.workspace.oracle)
      (hcounted : r₁.statistics = r.statistics.offered (.derived c.nucleus c.electrons)) :
      Ensures (settle m u (.derived c.nucleus c.electrons)) r₁
        (fun _ r' => ∃ es, r.Journals m p es r' ∧ es.filterMap Entry.fact? = [])
        fun _ r' => ∃ es, r.Journals m p es r' ∧ es.filterMap Entry.fact? <+: [] := by
    obtain ⟨cls, hsettle⟩ := journals_settle hoffered hunits horacle hcounted
    exact hsettle.mono (fun _ _ h => ⟨_, h, rfl⟩) fun _ _ h => ⟨_, h, List.prefix_rfl⟩
  split
  · simp only [ensures_bind, ensures_get, ensures_report]
    exact hsettle rfl rfl rfl
  · exact hsettle rfl rfl rfl

/-- Searching on for a contradiction writes no facts. -/
theorem journaling_saturate (c : Configuration) (n : Nat) :
    Journaling m p [] (saturate m p c n) := by
  induction n with
  | zero =>
    unfold saturate
    split
    · exact .throw _
    · exact .pure _
  | succ n ih =>
    have hcount : Journaling m p [] (count fun s => { s with iterations := s.iterations + 1 } :
        Running σ Unit) := .aside fun _ => .aside rfl (.refl _) rfl
    have hnext : Journaling m p [] (nextCandidate m p) := .aside fun _ => .aside rfl (.refl _) rfl
    unfold saturate
    split
    · exact .throw _
    · refine hcount.bind_left fun _ => hnext.bind_left fun candidate => ?_
      cases candidate with
      | none => exact .pure _
      | some candidate =>
        refine (journaling_infer c.trace candidate).bind_left fun root => ?_
        cases root with
        | some root => exact .pure _
        | none => exact ih

/-- Looking for a contradictory query writes no facts. -/
theorem journaling_contradictoryQuery {cs : List NormalizedClause}
    (hcs : ∀ c ∈ cs, c ∈ p.clauses) : Journaling m p [] (contradictoryQuery cs) := by
  induction cs with
  | nil => exact .pure _
  | cons c cs ih =>
    obtain ⟨hc, hrest⟩ := List.forall_mem_cons.mp hcs
    have hrecord {u : UnitClause} (hu : UnitClause.ofNormalized c = .ok u) :
        Journaling m p [] (changeStore (·.recordRefutation u (.derived c.index [])) :
          Running σ UnitId) := fun r => ensures_changeStore.mpr
      ⟨fun id units h => ⟨_, (Run.Writes.recorded hc hu h).journals, rfl⟩,
        fun _ _ => ⟨[], .refl, List.prefix_rfl⟩⟩
    unfold contradictoryQuery
    split
    · refine .lift_bind fun u hu => ?_
      refine (Journaling.ask fun o => (hasContradiction_spec rfl).1).bind_left fun found => ?_
      split
      · exact (hrecord hu).bind_left fun _ => .pure _
      · exact ih hrest
    · exact ih hrest

/-- Answering for a recorded contradiction writes nothing. -/
theorem journaling_refute (root : UnitId) : Journaling m p [] (refute p root) := by
  refine .aside fun r => ?_
  unfold refute
  simp only [ensures_bind, ensures_get, ensures_work, ensures_pure]
  exact (Refutation.ofUnit_onlyAsks r.units p root r.workspace).mono
    (fun _ _ h => .aside rfl h rfl) fun _ _ h => .aside rfl h rfl

/-- Answering for an exhausted search writes nothing. -/
theorem journaling_conclude : Journaling m p [] (conclude m p) := by
  refine Journaling.get.bind_left fun r => .lift_bind fun solution _ => ?_
  refine (Journaling.ask fun o => Solution.checkAll_asked.toLater).bind_left fun result => ?_
  refine .lift_bind fun passed _ => ?_
  split
  · exact .pure _
  · exact .pure _

theorem journaling_announce : Journaling m p [] (announce p : Running σ Unit) := .aside fun r =>
  .aside rfl (r.workspace.oracle.later_declare p.theories p.relations) rfl

/-- Searching for a contradiction writes entries for the facts of the problem. -/
theorem journaling_search (c : Configuration) :
    Journaling m p (factsOf p.clauses) (search m p c) :=
  journaling_announce.bind_left fun _ => (journaling_seed fun _ hc => hc).bind_right fun _ =>
    Journaling.get.bind_left fun _ => journaling_saturate c _

/-- Solving writes entries for the facts of the problem. -/
theorem journaling_solve (c : Configuration) :
    Journaling m p (factsOf p.clauses) (solve m p c) := by
  refine (journaling_search c).bind_right fun result => ?_
  cases result with
  | limit => exact .pure _
  | refuted root => exact journaling_refute root
  | exhausted =>
    refine (journaling_contradictoryQuery fun _ hc => hc).bind_left fun root => ?_
    cases root with
    | some root => exact journaling_refute root
    | none => exact journaling_conclude

end Running

end HornSaturation
