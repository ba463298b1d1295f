import HornSaturation.Proofs.Run.Offers
import HornSaturation.Proofs.Run.Steps

/-!
# Facts and inferences

Storing the facts of a problem covers their instances, and making an inference covers every instance
of its clause whose body its electrons assert, as far as the refutations of the oracle are right. A
contradiction is recorded only for a clause without head.
-/

namespace HornSaturation

/-- Constraints are simplified by projection, and finding redundant units only asks questions. -/
structure Method.IsUsual {σ : Type} (m : Method σ) : Prop where
  simplifier : m.simplifier = Term.project
  subsumption : m.subsumption.OnlyAsks

/-- The atoms that a candidate derives are covered. -/
def Store.Closed (z : ZeroDivision) (p : NormalizedProblem) (store : Store) (c : Candidate) :
    Prop :=
  ∀ clause, p.clauses[c.nucleus]? = some clause → ∀ body g,
    clause.HasInstance z p.relations body g →
    List.Forall₂ (store.AssertsAt z) c.electrons body → store.Covers z g

namespace Running

variable {σ : Type} {p : NormalizedProblem} {r : Run σ} {m : Method σ}

/-- Settling the reduced unit of a fact covers the instances of the fact. -/
private theorem ensures_settle_fact {c : NormalizedClause} {u₀ u : UnitClause} {s s' : Symbols}
    (hp : p.Regular) (hm : m.IsUsual) (hc : c ∈ p.clauses) (hhead : c.head ≠ none)
    (hu₀ : UnitClause.ofNormalized c = .ok u₀)
    (hu : (reduceUnit m.simplifier p.relations u₀).run.run s = (.ok u, s'))
    (hs : r.units.Sound p) :
    Ensures (settle m u (.fact c.index)) r
      (fun _ r' => r.Steps p r' ∧ r'.search = r.search ∧ r.Keeps m r' ∧
        r.Trusts m r' fun z => ∀ g, c.HasInstance z p.relations [] g → r'.units.Covers z g)
      fun _ r' => r.Steps p r' := by
  obtain ⟨hw, hj⟩ := (Offered.fact hc hhead hu₀ hu).spec hp hm.simplifier hs
  obtain ⟨-, -, -, href, hasserts⟩ := reducedFact_spec hp hc hu₀ (hm.simplifier ▸ hu)
  refine (ensures_settle hm.subsumption hs hw hj).mono (fun result r' h => ?_) fun _ _ => id
  have hnone : result = none := Option.eq_none_iff_forall_ne_some.mpr fun root hroot =>
    hhead (href.mp (h.recorded root hroot).1)
  exact ⟨h.steps, h.search, h.keeps, fun hsub z n ho hn g hg =>
    h.covers hnone hsub z n ho hn g ((hasserts z g).mpr hg)⟩

/-- Storing the facts among the clauses of a list. -/
theorem ensures_seed (hp : p.Regular) (hm : m.IsUsual) (cs : List NormalizedClause)
    (hcs : ∀ c ∈ cs, c ∈ p.clauses) (hs : r.units.Sound p) :
    Ensures (seed m p cs) r
      (fun _ r' => r.Steps p r' ∧ r'.search = r.search ∧ r.Keeps m r' ∧
        r.Trusts m r' fun z => ∀ c ∈ cs, c.body = [] → c.head ≠ none → ∀ g,
          c.HasInstance z p.relations [] g → r'.units.Covers z g)
      fun _ r' => r.Steps p r' := by
  induction cs generalizing r with
  | nil =>
    exact ⟨.refl hs, rfl, fun _ _ _ _ _ _ hg => hg,
      fun _ _ _ _ _ _ hc => absurd hc List.not_mem_nil⟩
  | cons c cs ih =>
    obtain ⟨hc, hrest⟩ := List.forall_mem_cons.mp hcs
    unfold seed
    split
    · next hfact =>
      simp only [Bool.and_eq_true, Bool.not_eq_true', NormalizedClause.isQuery] at hfact
      simp only [ensures_bind, ensures_work, ensures_allocate, ensures_liftM]
      refine ⟨fun u₀ hu₀ => ?_, fun e _ => .refl hs⟩
      refine ensures_run.mono ?_ fun _ _ _ => ⟨hs, .refl _, .refl _⟩
      intro u s hu
      have hhead : c.head ≠ none := by simpa [Option.ne_none_iff_isSome] using hfact.2
      have hsettle := ensures_settle_fact (r := { r with
        workspace := { r.workspace with symbols := s } }) hp hm hc hhead hu₀ hu hs
      refine hsettle.mono ?_ fun _ _ h => ⟨h.sound, h.evolves, h.later⟩
      rintro - r₁ ⟨hsettled, hsearch₁, hkept, hcovers⟩
      have hsteps₁ : r.Steps p r₁ := ⟨hsettled.sound, hsettled.evolves, hsettled.later⟩
      have hkeeps₁ : r.Keeps m r₁ := hkept
      refine (ih hrest hsteps₁.sound).mono ?_ fun _ _ h => hsteps₁.trans h
      rintro - r' ⟨hsteps, hsearch, hkeeps, hcov⟩
      refine ⟨hsteps₁.trans hsteps, hsearch.trans hsearch₁, hkeeps₁.trans hkeeps hsteps₁ hsteps,
        fun hsub z n ho hn d hd hbody hhead g hg => ?_⟩
      have ho₁ := ho.later hsteps₁.later
      rcases List.mem_cons.mp hd with rfl | hd
      · exact hkeeps hsub z n ho₁ hn g (hcovers hsub z n ho (hn.of_later hsteps.later) g hg)
      · exact hcov hsub z n ho₁ hn d hd hbody hhead g hg
    · next hfact =>
      refine (ih hrest hs).mono ?_ fun _ _ => id
      rintro - r' ⟨hsteps, hsearch, hkeeps, hcov⟩
      refine ⟨hsteps, hsearch, hkeeps, fun hsub z n ho hn d hd hbody hhead => ?_⟩
      rcases List.mem_cons.mp hd with rfl | hd
      · refine absurd ?_ hfact
        simpa [NormalizedClause.isUnit, NormalizedClause.isQuery, hbody, Option.ne_none_iff_isSome]
          using hhead
      · exact hcov hsub z n ho hn d hd hbody hhead

/-- A stored unit restates a clause without body and head. -/
def Restates (p : NormalizedProblem) (e : StoredUnit) : Prop :=
  ∃ c ∈ p.clauses, c.head = none ∧ e.unit.constraint = c.constraint ∧
    e.provenance = .derived c.index []

/-- A recorded contradiction has just been asked about and has not been denied. -/
def Contradicted (p : NormalizedProblem) (r : Run σ) (root : UnitId) : Prop :=
  ∃ e answer, r.units.get? root = some e ∧ e.unit.head = none ∧
    (OneSort e.unit.constraint.occurrences ∨ Restates p e) ∧
    r.workspace.oracle.HasAnswered [e.unit.constraint] answer ∧ answer ≠ .unsat

/-- What making an inference leaves behind. -/
structure Inferred (m : Method σ) (p : NormalizedProblem) (c : Candidate) (r : Run σ)
    (result : Option UnitId) (r' : Run σ) : Prop where
  steps : r.Steps p r'
  search : r'.search = r.search
  recorded : ∀ root, result = some root → Contradicted p r' root
  keeps : r.Keeps m r'
  closed : result = none → r.Trusts m r' fun z => r'.units.Closed z p c

/-- Making an inference. -/
theorem ensures_infer {trace : Bool} {c : Candidate} (hp : p.Regular) (hm : m.IsUsual)
    (hs : r.units.Sound p) :
    Ensures (infer m p trace c) r (Inferred m p c r) fun _ r' => r.Steps p r' := by
  unfold infer
  simp only [ensures_bind, ensures_get, ensures_liftM, ensures_work, ensures_allocate,
    ensures_count]
  refine ⟨?_, fun e _ => .refl hs⟩
  rintro ⟨clause, us⟩ hpremises
  obtain ⟨hclause, -, -, hus⟩ := premises_spec hpremises
  refine ensures_run.mono ?_ fun _ _ _ => ⟨hs, .refl _, .refl _⟩
  intro u s hrun
  obtain ⟨hw, hj⟩ := (Offered.resolvent hpremises hrun).spec hp hm.simplifier hs
  have hu := resolvent_spec hp hs hpremises (hm.simplifier ▸ hrun)
  have settled {r₁ : Run σ} (hunits : r₁.units = r.units) (hsearch : r₁.search = r.search)
      (ho : r₁.workspace.oracle = r.workspace.oracle) :
      Ensures (settle m u (.derived c.nucleus c.electrons)) r₁ (Inferred m p c r)
        fun _ r' => r.Steps p r' := by
    have back {r' : Run σ} (h : r₁.Steps p r') : r.Steps p r' :=
      ⟨h.sound, hunits ▸ h.evolves, ho ▸ h.later⟩
    have hsettle :=
      ensures_settle (r := r₁) hm.subsumption (hunits ▸ hs) hw (hunits ▸ hj)
    refine hsettle.mono (fun result r' h => ?_) fun _ _ => back
    have hsteps := back h.steps
    refine ⟨hsteps, h.search.trans hsearch, fun root hroot => ?_,
      fun hsub z n hplain hn g hg => ?_,
      fun hnone hsub z n hplain hn clause' hclause' body g hinst hbody => ?_⟩
    · obtain ⟨href, e, he, rfl⟩ := h.recorded root hroot
      obtain ⟨answer, hanswered, hanswer⟩ := h.answered root hroot
      have hhead : e.unit.head = none := by
        simpa [UnitClause.isRefutation, hu.polarity] using href
      have hsort := oneSort_of_resolvent hp hs hpremises (hm.simplifier ▸ hrun) hhead
      exact ⟨e, answer, he, hhead, .inl hsort, hanswered, hanswer⟩
    · rw [← ho] at hplain
      exact h.keeps hsub z n hplain hn g (hunits ▸ hg)
    · obtain rfl := Option.some.inj (hclause.symm.trans hclause')
      rw [← ho] at hplain
      have hcov := h.covers hnone hsub z n hplain hn g
      refine hcov ((hu.asserts z g).mpr ⟨body, hinst, ?_⟩)
      refine hus.of_common hbody ?_
      rintro i u g ⟨e, he, hunit⟩ ⟨e', he', hasserts⟩
      obtain ⟨e'', he'', hunit'', -⟩ := hsteps.evolves.kept i e he
      obtain rfl := Option.some.inj (he''.symm.trans he')
      rwa [hunit'', hunit, hsteps.sound.relations] at hasserts
  split
  · simp only [ensures_bind, ensures_get, ensures_report]
    exact settled rfl rfl rfl
  · exact settled rfl rfl rfl

/-- Taking a candidate changes the state of the strategy only. -/
theorem ensures_nextCandidate {ok : Option Candidate → Run σ → Prop}
    {fail : Error → Run σ → Prop} :
    Ensures (nextCandidate m p) r ok fail ↔
      ok (m.next p.clauses r.units r.search).1
        { r with search := (m.next p.clauses r.units r.search).2 } := .rfl

end Running

end HornSaturation
