import HornSaturation.Proofs.Run.Saturation
import Mathlib

/-!
# The active units of an exhausted search

When level saturation is exhausted, the active units are closed under the clauses as they were
stated: they assert the heads of all instances whose bodies they assert, and there is no such
instance of a query. Queries without body take part in no inference; they are looked at afterwards.
-/

namespace HornSaturation

variable {z : ZeroDivision}

/-- What active units assert is closed under a clause: whenever they assert the body of an instance,
the clause is no query, and they assert the head. -/
def Store.ClosedUnder (z : ZeroDivision) (store : Store) (clause : Clause) : Prop :=
  ∀ body head, clause.HasInstance z body head → (∀ g ∈ body, store.Covers z g) →
    clause.head ≠ none ∧ store.Covers z head

namespace Store

variable {p : NormalizedProblem} {store : Store}

/-- No active unit asserts `false`. -/
theorem Sound.not_covers_falsum (hs : store.Sound p) : ¬ store.Covers z .falsum := by
  rintro ⟨i, e, he, hactive, hhead, -⟩
  exact hs.headed i e he hactive hhead

/-- Ground atoms that are covered are asserted by active units of their relations. -/
theorem Sound.exists_electrons (hs : store.Sound p) {ρ : Valuation} {body : List Atom}
    {gs : List GroundAtom} (h : List.Forall₂ (Atom.Denotes p.relations ρ) body gs)
    (hcov : ∀ g ∈ gs, store.Covers z g) :
    ∃ ids, List.Forall₂ (fun (a : Atom) i => i ∈ store.unitIds a.relation) body ids ∧
      List.Forall₂ (store.AssertsAt z) ids gs := by
  induction h with
  | nil => exact ⟨[], .nil, .nil⟩
  | @cons a g body gs ha _ ih =>
    obtain ⟨hfirst, hrest⟩ := List.forall_mem_cons.mp hcov
    obtain ⟨ids, hids, hasserts⟩ := ih hrest
    obtain ⟨i, e, he, hactive, hhead, hadmits⟩ := hfirst
    exact ⟨i :: ids, .cons ((hs.listed a.relation i).mpr ⟨e, he, hactive, hhead.trans ha.1⟩) hids,
      .cons ⟨e, he, hhead, hadmits⟩ hasserts⟩

end Store

variable {p : Problem} {np : NormalizedProblem} {store : Store} {clause : Clause}

/-- A store that covers the facts is closed under them. -/
theorem Problem.NormalForm.closedUnder_fact (hform : p.NormalForm np)
    (hfacts : store.CoversFacts z np) (hmem : clause ∈ p.clauses) (hempty : clause.body = [])
    (hhead : clause.head ≠ none) : store.ClosedUnder z clause := by
  intro body head hinst _
  obtain ⟨i, nc, hnc, hnf⟩ := hform.exists_normalized hmem
  have hinst' := (hnf.hasInstance z body head).mpr hinst
  obtain ⟨ρ, -, hdenotes, -⟩ := (hnf.hasInstance z body head).mpr hinst
  have hbody := hnf.body_eq_nil.mpr hempty
  rw [hbody] at hdenotes
  cases hdenotes
  have hhead' : nc.head ≠ none := mt hnf.head_eq_none.mp hhead
  exact ⟨hhead, hfacts nc (List.mem_of_getElem? hnc) hbody hhead' head hinst'⟩

/-- A store that covers the facts and is closed for all combinations is closed under the clauses
that inferences use. -/
theorem Problem.NormalForm.closedUnder (hform : p.NormalForm np) (hs : store.Sound np)
    (hfacts : store.CoversFacts z np)
    (hclosed : ∀ c, store.Combines np c → store.Closed z np c) (hmem : clause ∈ p.clauses)
    (hused : clause.head ≠ none ∨ clause.body ≠ []) : store.ClosedUnder z clause := by
  by_cases hempty : clause.body = []
  · exact hform.closedUnder_fact hfacts hmem hempty (hused.resolve_right (not_not_intro hempty))
  intro body head hinst hbody
  obtain ⟨i, nc, hnc, hnf⟩ := hform.exists_normalized hmem
  have hinst' := (hnf.hasInstance z body head).mpr hinst
  obtain ⟨ρ, -, hdenotes, hhead⟩ := (hnf.hasInstance z body head).mpr hinst
  obtain ⟨ids, hids, hasserts⟩ := hs.exists_electrons hdenotes hbody
  have hcov : store.Covers z head :=
    hclosed ⟨i, ids⟩ ⟨nc, hnc, mt hnf.body_eq_nil.mp hempty, hids⟩ nc hnc body head hinst' hasserts
  refine ⟨fun hnone => hs.not_covers_falsum (z := z) ?_, hcov⟩
  rw [hnf.head_eq_none.mpr hnone] at hhead
  obtain rfl : head = .falsum := hhead
  exact hcov

/-- Every store is closed under a query that has no instance. -/
theorem Problem.NormalForm.closedUnder_query (hform : p.NormalForm np)
    (hqueries : ∀ c ∈ np.clauses, c.body = [] → c.head = none → ∀ g,
      ¬ c.HasInstance z np.relations [] g) (hmem : clause ∈ p.clauses)
    (hhead : clause.head = none) (hempty : clause.body = []) : store.ClosedUnder z clause := by
  intro body head hinst _
  obtain ⟨i, nc, hnc, hnf⟩ := hform.exists_normalized hmem
  have hinst' := (hnf.hasInstance z body head).mpr hinst
  have hbody := hnf.body_eq_nil.mpr hempty
  obtain ⟨ρ, -, hdenotes, -⟩ := (hnf.hasInstance z body head).mpr hinst
  rw [hbody] at hdenotes
  cases hdenotes
  exact absurd hinst'
    (hqueries nc (List.mem_of_getElem? hnc) hbody (hnf.head_eq_none.mpr hhead) head)

open Running in
/-- When level saturation is exhausted, and what the oracle has refuted since the start has no
model, the active units are closed under all clauses but queries without body, and under these, too,
if no contradiction is found among them. -/
theorem closedUnder_of_exhausted {oracle : Oracle} {c : Configuration} {r : Run Saturation}
    (hw : p.WellSorted) (hn : p.normalize = .ok np) (ho : oracle.assertions = [])
    (h : (search .standard np c).run.run (.start {} np oracle) = (.ok .exhausted, r)) :
    (r.workspace.oracle.SoundSince z oracle.refuted.length → ∀ clause ∈ p.clauses,
      clause.head ≠ none ∨ clause.body ≠ [] → r.units.ClosedUnder z clause) ∧
    ∀ r', (contradictoryQuery np.clauses).run.run r = (.ok none, r') →
      r'.workspace.oracle.SoundSince z oracle.refuted.length → r'.units = r.units ∧
        ∀ clause ∈ p.clauses, r.units.ClosedUnder z clause := by
  have hform := p.normalForm_of_normalize hw hn
  have hreg := hform.regular hw
  have hplain : oracle.PlainSince oracle.refuted.length := ⟨ho, Nat.le_refl _⟩
  have hstart (units : Store) (o : Oracle) (_ : Store.Evolves { relations := np.relations } units)
      (hl : oracle.Later o) : Saturates np oracle {} units o := by
    refine ⟨hl, Nat.zero_le _, fun z n _ _ c ⟨clause, _, hbody, hids⟩ hissued => ?_⟩
    obtain ⟨a, ha⟩ := List.exists_mem_of_ne_nil _ hbody
    obtain ⟨i, hi, -⟩ := hids.exists_right ha
    exact absurd (hissued.old i hi) (Nat.not_lt_zero i)
  have husual : Method.IsUsual .standard := ⟨rfl, Subsumption.byImplication_onlyAsks⟩
  have hsearch := (ensures_search (c := c) (r := .start ({} : Saturation) np oracle) hreg husual
    (saturates_kept np oracle) (Store.sound_empty np) hstart).of_ok h
  obtain ⟨s, ⟨-, -, hissued⟩, hnone⟩ := hsearch.exhausted rfl
  have hs := hsearch.steps.sound
  have hused (hsound : r.workspace.oracle.SoundSince z oracle.refuted.length) :
      ∀ clause ∈ p.clauses, clause.head ≠ none ∨ clause.body ≠ [] →
        r.units.ClosedUnder z clause := fun clause hmem =>
    hform.closedUnder hs (hsearch.facts rfl rfl z _ hplain hsound) (fun d hd =>
      hissued z _ hplain hsound d hd (Saturation.issued_of_exhausted hs.listed hnone hd)) hmem
  refine ⟨hused, fun r' h' hsound => ?_⟩
  have hchecked := (ensures_contradictoryQuery hreg np.clauses (fun _ hc => hc) hs).of_ok h'
  refine ⟨hchecked.units rfl, fun clause hmem => ?_⟩
  by_cases hquery : clause.head = none ∧ clause.body = []
  · have hqueries := hchecked.infeasible rfl z _ (hplain.later hsearch.steps.later) hsound
    exact hform.closedUnder_query hqueries hmem hquery.1 hquery.2
  · exact hused (hsound.of_later hchecked.steps.later) clause hmem (not_and_or.mp hquery)

/-- A fact about a number, a rule for positive numbers, and a query about another number. -/
def Problem.threeIsPositive : Problem where
  relations := [⟨0, "P", [.int]⟩, ⟨1, "Positive", []⟩]
  clauses := [
    ⟨[], none, some ⟨0, [.int 3]⟩⟩,
    ⟨[⟨0, [.var ⟨"x", .int⟩]⟩], some (.op .gt [.var ⟨"x", .int⟩, .int 0]), some ⟨1, []⟩⟩,
    ⟨[⟨0, [.int 5]⟩], none, none⟩]

/-- The normalized form of this problem. -/
def NormalizedProblem.threeIsPositive : NormalizedProblem where
  relations := [⟨0, "P", [.int]⟩, ⟨1, "Positive", []⟩]
  clauses := [
    ⟨0, [], some ⟨0, 0⟩, .op .eq [.var ⟨"P@0_0", .int⟩, .int 3]⟩,
    ⟨1, [⟨0, 0⟩], some ⟨1, 0⟩, .op .and [.op .eq [.var ⟨"P@0_0", .int⟩, .var ⟨"x", .int⟩],
      .op .gt [.var ⟨"x", .int⟩, .int 0]]⟩,
    ⟨2, [⟨0, 0⟩], none, .op .eq [.var ⟨"P@0_0", .int⟩, .int 5]⟩]

/-- The state in which level saturation is exhausted for this problem. -/
def Run.threeIsPositive : Run Saturation :=
  ((Running.search .standard .threeIsPositive {}).run.run
    (.start {} .threeIsPositive { window := ⟨-4, 4⟩, cap := 100 })).2

theorem closedUnder_threeIsPositive : Problem.threeIsPositive.clauses.Forall
    (Run.threeIsPositive.units.ClosedUnder ⟨fun _ => 0, fun _ => 0⟩) := by
  have hw : Problem.threeIsPositive.WellSorted := by decide
  have hn : Problem.threeIsPositive.normalize = .ok .threeIsPositive := by rfl
  have h : (Running.search .standard .threeIsPositive {}).run.run
      (.start {} .threeIsPositive { window := ⟨-4, 4⟩, cap := 100 }) =
      (.ok .exhausted, Run.threeIsPositive) := by
    refine Prod.ext ?_ rfl
    cbv
  have h' : (Running.contradictoryQuery NormalizedProblem.threeIsPositive.clauses).run.run
      Run.threeIsPositive = (.ok none, Run.threeIsPositive) := by
    rfl
  have hlog : Run.threeIsPositive.workspace.oracle.refuted = [[.bool false]] := by cbv
  refine List.forall_iff_forall_mem.mpr
    ((closedUnder_of_exhausted hw hn rfl h).2 _ h' fun ts hts ρ hall => ?_).2
  rw [hlog] at hts
  obtain rfl : ts = [.bool false] := by simpa using hts
  have hfalse := hall (.bool false) List.mem_cons_self
  simp at hfalse

end HornSaturation
