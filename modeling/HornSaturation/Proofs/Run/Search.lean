import HornSaturation.Proofs.Run.Inferences
import HornSaturation.Run.Solve

/-!
# The search for a contradiction

A search makes the inferences that a strategy names until one gives a contradiction or the strategy
is exhausted. What each inference preserves holds at the end, so it is enough to give an invariant
of the strategy and to show that one inference keeps it.
-/

namespace HornSaturation

/-- Making theories and relations known does not touch scopes and logs. -/
theorem Oracle.later_declare (o : Oracle) (ts : List Theory) (rs : List Relation) :
    o.Later (rs.foldl Oracle.declareRelation (o.declareTheories ts)) := by
  have hrelation (o : Oracle) (r : Relation) : o.Later (o.declareRelation r) := by
    unfold Oracle.declareRelation
    split
    · exact .refl o
    · exact ⟨rfl, rfl, List.prefix_rfl⟩
  have hrelations (o : Oracle) : o.Later (rs.foldl Oracle.declareRelation o) := by
    induction rs generalizing o with
    | nil => exact .refl o
    | cons r rs ih => exact (hrelation o r).trans (ih _)
  have htheories : o.Later (o.declareTheories ts) := ⟨rfl, rfl, List.prefix_rfl⟩
  exact htheories.trans (hrelations _)

/-- The active units of a store assert what the facts of a problem state. -/
def Store.CoversFacts (z : ZeroDivision) (p : NormalizedProblem) (store : Store) : Prop :=
  ∀ c ∈ p.clauses, c.body = [] → c.head ≠ none → ∀ g, c.HasInstance z p.relations [] g →
    store.Covers z g

namespace Running

variable {σ : Type} {p : NormalizedProblem} {r : Run σ} {m : Method σ} {c : Configuration}

/-- A recorded unit stands for a contradiction. -/
def Recorded (r : Run σ) (root : UnitId) : Prop :=
  ∃ e, r.units.get? root = some e ∧ e.unit.head = none

theorem Contradicted.recorded {root : UnitId} (h : Contradicted p r root) : Recorded r root := by
  obtain ⟨e, -, he, hhead, -⟩ := h
  exact ⟨e, he, hhead⟩

/-- A property of the states of a strategy, of stores and of oracles that every inference keeps. -/
def KeptBy (m : Method σ) (p : NormalizedProblem) (inv : σ → Store → Oracle → Prop) : Prop :=
  ∀ (search : σ) (candidate : Candidate) (r r' : Run σ), r.units.Sound p →
    inv search r.units r.workspace.oracle →
    m.next p.clauses r.units search = (some candidate, r.search) →
    Inferred m p candidate r none r' → inv r'.search r'.units r'.workspace.oracle

/-- How a search ends. -/
structure Searched (m : Method σ) (p : NormalizedProblem) (inv : σ → Store → Oracle → Prop)
    (r : Run σ) (result : SearchEnd) (r' : Run σ) : Prop where
  steps : r.Steps p r'
  recorded : ∀ root, result = .refuted root → Contradicted p r' root
  keeps : result = .exhausted → r.Keeps m r'
  exhausted : result = .exhausted → ∃ search, inv search r'.units r'.workspace.oracle ∧
    (m.next p.clauses r'.units search).1 = none

/-- Whatever every inference keeps holds when the search ends. -/
theorem ensures_saturate {inv : σ → Store → Oracle → Prop} (hp : p.Regular) (hm : m.IsUsual)
    (hinv : KeptBy m p inv) (n : Nat) (hs : r.units.Sound p)
    (hr : inv r.search r.units r.workspace.oracle) :
    Ensures (saturate m p c n) r (Searched m p inv r) fun _ r' => r.Steps p r' := by
  induction n generalizing r with
  | zero =>
    unfold saturate
    split
    · exact .refl hs
    · exact ⟨.refl hs, by simp, by simp, by simp⟩
  | succ n ih =>
    unfold saturate
    split
    · exact .refl hs
    simp only [ensures_bind, ensures_count, ensures_nextCandidate]
    rcases hnext : m.next p.clauses r.units r.search with ⟨candidate, search⟩
    cases candidate with
    | none =>
      refine ⟨⟨hs, .refl _, .refl _⟩, by simp, fun _ _ _ _ _ _ _ hg => hg, fun _ => ?_⟩
      exact ⟨r.search, hr, congrArg Prod.fst hnext⟩
    | some candidate =>
      simp only [ensures_bind]
      refine (ensures_infer (r := { r with
        search
        statistics := { r.statistics with iterations := r.statistics.iterations + 1 } })
        hp hm hs).mono (fun result r₁ h => ?_) fun _ _ h => ⟨h.sound, h.evolves, h.later⟩
      have hsteps : r.Steps p r₁ := ⟨h.steps.sound, h.steps.evolves, h.steps.later⟩
      cases result with
      | some root =>
        refine ⟨hsteps, fun root' hroot => ?_, by simp, by simp⟩
        obtain rfl := SearchEnd.refuted.inj hroot
        exact h.recorded root rfl
      | none =>
        have hr₁ := hinv r.search candidate { r with search, statistics := _ } r₁ hs hr hnext h
        refine (ih hsteps.sound hr₁).mono (fun result r' h' => ?_) fun _ _ h' => hsteps.trans h'
        have hkeeps : r.Keeps m r₁ := h.keeps
        exact ⟨hsteps.trans h'.steps, h'.recorded,
          fun he => hkeeps.trans (h'.keeps he) hsteps h'.steps, h'.exhausted⟩

/-- What a search from the facts of a problem on leaves behind. -/
structure SearchedFromFacts (m : Method σ) (p : NormalizedProblem)
    (inv : σ → Store → Oracle → Prop) (r : Run σ) (result : SearchEnd) (r' : Run σ) : Prop
    extends Searched m p inv r result r' where
  facts : result = .exhausted → r.Trusts m r' fun z => r'.units.CoversFacts z p

/-- A search from the facts of a problem on. -/
theorem ensures_search {inv : σ → Store → Oracle → Prop} (hp : p.Regular) (hm : m.IsUsual)
    (hinv : KeptBy m p inv) (hs : r.units.Sound p)
    (hr : ∀ units oracle, r.units.Evolves units → r.workspace.oracle.Later oracle →
      inv r.search units oracle) :
    Ensures (search m p c) r (SearchedFromFacts m p inv r) fun _ r' => r.Steps p r' := by
  unfold search announce
  simp only [ensures_bind, ensures_modify, ensures_get]
  have hl := r.workspace.oracle.later_declare p.theories p.relations
  set r₀ : Run σ := { r with workspace := ⟨p.relations.foldl Oracle.declareRelation
    (r.workspace.oracle.declareTheories p.theories),
    r.workspace.symbols.prepare p.relations p.maxOccurrences⟩ } with hr₀
  have hsteps₀ : r.Steps p r₀ := ⟨hs, .refl _, hl⟩
  refine (ensures_seed (r := r₀) hp hm p.clauses (fun _ hc => hc) hs).mono ?_ fun _ _ h =>
    hsteps₀.trans h
  rintro - r₁ ⟨hsteps, hsearch, hkeeps, hfacts⟩
  have hsteps₁ := hsteps₀.trans hsteps
  have hr₁ : inv r₁.search r₁.units r₁.workspace.oracle :=
    hsearch ▸ hr _ _ hsteps₁.evolves hsteps₁.later
  refine (ensures_saturate hp hm hinv _ hsteps₁.sound hr₁).mono (fun result r' h => ?_)
    fun _ _ h => hsteps₁.trans h
  have hkeeps₁ : r.Keeps m r₁ := hkeeps.right hl
  refine ⟨⟨hsteps₁.trans h.steps, h.recorded, fun he => hkeeps₁.trans (h.keeps he) hsteps₁ h.steps,
    h.exhausted⟩, fun he hsub z n ho hn c hc hbody hhead g hg => ?_⟩
  refine h.keeps he hsub z n (ho.later hsteps₁.later) hn g ?_
  exact hfacts hsub z n (ho.later hl) (hn.of_later h.steps.later) c hc hbody hhead g hg

/-- What the look at clauses without body and head leaves behind. -/
structure QueriesChecked (p : NormalizedProblem) (cs : List NormalizedClause) (r : Run σ)
    (result : Option UnitId) (r' : Run σ) : Prop where
  steps : r.Steps p r'
  recorded : ∀ root, result = some root → Contradicted p r' root
  units : result = none → r'.units = r.units
  infeasible : result = none → ∀ z n, r.workspace.oracle.PlainSince n →
    r'.workspace.oracle.SoundSince z n → ∀ c ∈ cs, c.body = [] → c.head = none →
      ∀ g, ¬ c.HasInstance z p.relations [] g

/-- Looking for a contradictory query among clauses without body. -/
theorem ensures_contradictoryQuery (hp : p.Regular) (cs : List NormalizedClause)
    (hcs : ∀ c ∈ cs, c ∈ p.clauses) (hs : r.units.Sound p) :
    Ensures (contradictoryQuery cs) r (QueriesChecked p cs r) fun _ r' => r.Steps p r' := by
  induction cs generalizing r with
  | nil =>
    exact ⟨.refl hs, by simp, fun _ => rfl, fun _ _ _ _ _ _ hc => absurd hc List.not_mem_nil⟩
  | cons c cs ih =>
    obtain ⟨hc, hrest⟩ := List.forall_mem_cons.mp hcs
    unfold contradictoryQuery
    split
    · next hquery =>
      simp only [Bool.and_eq_true, NormalizedClause.isQuery, Option.isNone_iff_eq_none] at hquery
      simp only [ensures_bind, ensures_liftM, ensures_ask]
      refine ⟨fun u hu => ?_, fun e _ => .refl hs⟩
      obtain ⟨-, hhead, -, href, hasserts⟩ :=
        UnitClause.ofNormalized_spec (hp.of_mem hc).2 hu
      rcases hcontra : hasContradiction u r.workspace.oracle with ⟨contradictory, o⟩
      obtain ⟨hl, -, hnot⟩ := hasContradiction_spec hcontra
      cases contradictory with
      | true =>
        simp only [if_true, ensures_bind, ensures_changeStore, ensures_pure]
        refine ⟨fun root units heq => ?_, fun e _ => ⟨hs, .refl _, hl⟩⟩
        obtain ⟨hsound, hev, hget, -⟩ :=
          Store.recordRefutation_ofNormalized_spec hp hs hc hu heq
        refine ⟨⟨hsound, hev, hl⟩, fun root' hroot => ?_, by simp, by simp⟩
        obtain rfl := Option.some.inj hroot
        obtain ⟨answer, hanswered, hanswer⟩ := hasAnswered_of_hasContradiction hcontra
        have hnone : u.head = none := by simp [hhead, NormalizedClause.headRelation?, hquery.2]
        have hrestates : Restates p ⟨u, .derived c.index [], false⟩ :=
          ⟨c, hc, hquery.2, UnitClause.ofNormalized_constraint hu, rfl⟩
        exact ⟨_, answer, hget, hnone, .inr hrestates, hanswered, hanswer⟩
      | false =>
        simp only [Bool.false_eq_true, if_false]
        set r₀ : Run σ := { r with workspace := { r.workspace with oracle := o } }
        have hsteps : r.Steps p r₀ := ⟨hs, .refl _, hl⟩
        refine (ih (r := r₀) hrest hs).mono (fun result r' h => ?_) fun _ _ h => hsteps.trans h
        refine ⟨hsteps.trans h.steps, h.recorded, h.units,
          fun hnone z n ho hn d hd hbody hhead g hg => ?_⟩
        rcases List.mem_cons.mp hd with rfl | hd
        · have hnever := hnot rfl (href.mpr hquery.2) z n ho (hn.of_later h.steps.later)
          exact not_asserts_of_not_holds hnever g ((hasserts z g).mpr hg)
        · exact h.infeasible hnone z n (ho.later hl) hn d hd hbody hhead g hg
    · next hquery =>
      refine (ih hrest hs).mono (fun result r' h => ?_) fun _ _ => id
      refine ⟨h.steps, h.recorded, h.units, fun hnone z n ho hn d hd hbody hhead => ?_⟩
      rcases List.mem_cons.mp hd with rfl | hd
      · refine absurd ?_ hquery
        simp [NormalizedClause.isUnit, NormalizedClause.isQuery, hbody, hhead]
      · exact h.infeasible hnone z n ho hn d hd hbody hhead

end Running

end HornSaturation
