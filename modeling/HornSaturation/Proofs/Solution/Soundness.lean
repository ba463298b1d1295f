import HornSaturation.Proofs.Run.Closure
import HornSaturation.Proofs.Run.Solving
import HornSaturation.Proofs.Solution.Normalized

/-!
# Solutions satisfy the clauses

When a run answers with a solution, and what the oracle has refuted on the way has no model, the
solution satisfies every clause that the check has looked at, and every fact. A clause that the
check passes over because its head is interpreted with existential variables is satisfied exactly if
the active units are closed under it, which a strategy that stops early does not see to.
-/

namespace HornSaturation

variable {z : ZeroDivision}

namespace Solution

variable {p : NormalizedProblem} {store : Store} {s : Solution} {c : Clause}

namespace AmountsTo

/-- A ground atom is true in the interpretations if active units assert it. -/
theorem trueIn_iff (h : s.AmountsTo z p store) {ρ : Valuation} {a : Atom} {g : GroundAtom}
    (hg : a.Denotes p.relations ρ g) : g.TrueIn (s.Admits z) ↔ store.Covers z g := by
  obtain ⟨hrelation, vars, hvars, -⟩ := hg
  obtain ⟨r, hr, -⟩ := Atom.arguments_eq_ok.mp hvars
  obtain ⟨relation, args⟩ := g
  obtain rfl : relation = some a.relation := hrelation
  rw [← h a.relation r args hr]
  constructor
  · rintro ⟨id, hid, hadmits⟩
    obtain rfl := Option.some.inj hid
    exact hadmits
  · exact fun hadmits => ⟨a.relation, rfl, hadmits⟩

/-- The interpretations satisfy a clause if the active units are closed under it. -/
theorem satisfiedBy_iff (h : s.AmountsTo z p store)
    {nc : NormalizedClause} (hnf : c.NormalForm p.relations nc) :
    c.SatisfiedBy z (s.Admits z) ↔ store.ClosedUnder z c := by
  refine forall₂_congr fun body head => forall_congr' fun hinst => ?_
  obtain ⟨ρ, -, hbody, hhead⟩ := (hnf.hasInstance z body head).mpr hinst
  have htrue : (∀ g ∈ body, g.TrueIn (s.Admits z)) ↔ ∀ g ∈ body, store.Covers z g :=
    forall₂_congr fun g hg => by
      obtain ⟨a, -, ha⟩ := hbody.flip.exists_right hg
      exact h.trueIn_iff ha
  rw [htrue]
  refine imp_congr_right fun _ => ?_
  cases hnc : nc.head with
  | none =>
    rw [hnc] at hhead
    obtain rfl : head = .falsum := hhead
    refine ⟨fun ⟨r, hr, _⟩ => (nomatch hr), fun hclosed => ?_⟩
    exact absurd (hnf.head_eq_none.mp hnc) hclosed.1
  | some a =>
    rw [hnc] at hhead
    rw [h.trueIn_iff hhead]
    exact (and_iff_right fun hnone => by simp [hnf.head_eq_none.mpr hnone] at hnc).symm

end AmountsTo

/-- A solution that passes the check satisfies every clause that the check does not pass over. -/
theorem Interprets.satisfiedBy_of_checked {n : Nat} {o o' : Oracle}
    (hs : s.Interprets p.relations) (hp : p.Regular) (ho : o.PlainSince n)
    (h : s.checkNormalized p o = (.ok true, o')) (hsound : o'.SoundSince z n)
    {nc : NormalizedClause} (hnc : nc ∈ p.clauses) (hnf : c.NormalForm p.relations nc)
    (hc : ¬ s.PassesOver c) : c.SatisfiedBy z (s.Admits z) := by
  obtain ⟨t?, ht, hvalid⟩ := checkAll_spec ho h hsound nc hnc
  obtain ⟨hnone, hsome⟩ := hs.normalizedFormula?_spec (hp.of_mem hnc).2 ht
  cases t? with
  | none => exact absurd ((passesOver_spelled hnf).mp (hnone.mp rfl)) hc
  | some t =>
    obtain ⟨hsort, hsatisfied⟩ := hsome t rfl
    exact hnf.satisfiedBy.mp ((hsatisfied z).mp (hvalid t rfl hsort))

end Solution

variable {σ : Type} {m : Method σ} {p : Problem} {np : NormalizedProblem} {c : Configuration}
  {r r' : Run σ} {solution : Solution}

/-- When a run answers with a solution, and what the oracle has refuted on the way has no model, the
solution satisfies every fact, every clause that the check does not pass over, and of the others
exactly those under which the active units are closed. -/
theorem satisfiedBy_of_sat (hw : p.WellSorted) (hn : p.normalize = .ok np)
    (hsimplifier : m.simplifier = Term.project) (hsubsumption : m.subsumption = .byImplication)
    (hr : r.Reachable m np) (ho : r.workspace.oracle.assertions = [])
    (h : (Running.solve m np c).run.run r = (.ok (.sat solution), r'))
    (hsound : r'.workspace.oracle.SoundSince z r.workspace.oracle.refuted.length) :
    ∀ clause ∈ p.clauses, clause.SatisfiedBy z (solution.Admits z) ↔
      clause.body = [] ∨ ¬ solution.PassesOver clause ∨ r'.units.ClosedUnder z clause := by
  have hform := p.normalForm_of_normalize hw hn
  have hreg := hform.regular hw
  have hm : m.IsUsual := ⟨hsimplifier, hsubsumption ▸ Subsumption.byImplication_onlyAsks⟩
  have hs := hr.sound hreg hm
  have hsolved := (Running.ensures_solve hreg hm hs).of_ok h
  obtain ⟨⟨symbols, hbuilt⟩, ⟨o, hlater, hchecked⟩, hfacts⟩ := hsolved.sat solution rfl
  rw [hsimplifier] at hbuilt
  obtain ⟨hinterprets, hamounts⟩ :=
    Solution.ofStore_spec (z := z) hreg.relations hsolved.steps.sound hbuilt
  have hplain : r.workspace.oracle.PlainSince r.workspace.oracle.refuted.length :=
    ⟨ho, Nat.le_refl _⟩
  intro clause hmem
  obtain ⟨i, nc, hnc, hnf⟩ := hform.exists_normalized hmem
  have hmem' : nc ∈ np.clauses := List.mem_of_getElem? hnc
  have hclosed := hamounts.satisfiedBy_iff hnf
  by_cases hpasses : solution.PassesOver clause
  · simp only [hpasses, not_true_eq_false, false_or]
    refine ⟨fun hsat => .inr (hclosed.mp hsat), fun hcase => hclosed.mpr ?_⟩
    refine hcase.elim (fun hempty => ?_) fun h => h
    obtain ⟨a, -, ha, -⟩ := hpasses
    exact hform.closedUnder_fact (hfacts hsubsumption z _ hplain hsound) hmem hempty (by simp [ha])
  · simp only [hpasses, not_false_eq_true, true_or, or_true, iff_true]
    exact hinterprets.satisfiedBy_of_checked hreg (hplain.later hlater) hchecked hsound hmem' hnf
      hpasses

/-- A fact about all even numbers, a rule that takes numbers to their successors, and a query about
one. -/
def Problem.evenNumbers : Problem where
  relations := [⟨0, "R", [.int]⟩]
  clauses := [
    ⟨[], none, some ⟨0, [.op .mul [.int 2, .var ⟨"y", .int⟩]]⟩⟩,
    ⟨[⟨0, [.var ⟨"x", .int⟩]⟩], none, some ⟨0, [.op .add [.var ⟨"x", .int⟩, .int 1]]⟩⟩,
    ⟨[⟨0, [.int 1]⟩], none, none⟩]

/-- The normalized form of this problem. -/
def NormalizedProblem.evenNumbers : NormalizedProblem where
  relations := [⟨0, "R", [.int]⟩]
  clauses := [
    ⟨0, [], some ⟨0, 0⟩,
      .op .eq [.var ⟨"R@0_0", .int⟩, .op .mul [.int 2, .var ⟨"y", .int⟩]]⟩,
    ⟨1, [⟨0, 0⟩], some ⟨0, 1⟩, .op .and [.op .eq [.var ⟨"R@0_0", .int⟩, .var ⟨"x", .int⟩],
      .op .eq [.var ⟨"R@1_0", .int⟩, .op .add [.var ⟨"x", .int⟩, .int 1]]]⟩,
    ⟨2, [⟨0, 0⟩], none, .op .eq [.var ⟨"R@0_0", .int⟩, .int 1]⟩]

/-- The interpretation by even numbers. -/
def Solution.evenNumbers : Solution := ⟨[(0, ⟨[⟨"x0", .int⟩], [⟨"e0", .int⟩],
  .op .eq [.var ⟨"x0", .int⟩, .op .mul [.int 2, .var ⟨"e0", .int⟩]]⟩)]⟩

/-- The state in which this problem is solved by a strategy without candidates. -/
def Run.evenNumbers : Run (List Candidate) :=
  ((Running.solve { next := nextOfList } .evenNumbers {}).run.run
    (.start [] .evenNumbers { window := ⟨-1, 1⟩, cap := 100 })).2

theorem solve_evenNumbers : (Running.solve { next := nextOfList } .evenNumbers {}).run.run
    (.start [] .evenNumbers { window := ⟨-1, 1⟩, cap := 100 }) =
    (.ok (.sat .evenNumbers), Run.evenNumbers) := by
  refine Prod.ext ?_ rfl
  cbv

/-- One is no even number. -/
private theorem not_holds_double {v w : Var} {ρ : Valuation} (hw : w.sort = .int)
    (hv : ρ.value v = .int 1) :
    ¬ (Term.op .eq [.var v, .op .mul [.int 2, .var w]]).Holds z ρ := by
  obtain ⟨n, hn⟩ := Value.exists_int ((ρ.sorted w).trans hw)
  have hdouble : (Term.op .mul [.int 2, .var w]).meaning z ρ = some (.int (2 * n)) := by
    rw [Term.meaning_op, List.map_cons, List.map_cons, Term.meaning_var, hn]
    rfl
  intro hholds
  have hvalue := Term.holds_equation_var.mp hholds
  rw [hdouble, hv, Option.some.injEq, Value.int.injEq] at hvalue
  omega

/-- What the oracle refutes has no model. -/
theorem soundSince_evenNumbers (z : ZeroDivision) :
    Run.evenNumbers.workspace.oracle.SoundSince z 0 := by
  have hlog : Run.evenNumbers.workspace.oracle.refuted = [[.op .not [.op .implies [
      .op .and [.op .eq [.var ⟨"R@0_0", .int⟩, .int 1],
        .op .eq [.var ⟨"R@0_0", .int⟩, .op .mul [.int 2, .var ⟨"e0!b0", .int⟩]]],
      .bool false]]]] := by cbv
  intro ts hts ρ hall
  rw [hlog] at hts
  obtain rfl := List.mem_singleton.mp hts
  refine (Term.holds_not (by decide)).mp (hall _ List.mem_cons_self)
    ((Term.holds_implication (by decide)).mpr fun hand => ?_)
  obtain ⟨hone, hdouble, -⟩ := by simpa only [List.forall_mem_cons] using Term.holds_and.mp hand
  have hvalue : some (Value.int 1) = some _ := Term.holds_equation_var.mp hone
  exact absurd hdouble (not_holds_double rfl (Option.some.inj hvalue).symm)

theorem satisfiedBy_evenNumbers :
    (Problem.evenNumbers.clauses.filter fun clause => clause.isFact || clause.isQuery).Forall
      (Clause.SatisfiedBy ⟨fun _ => 0, fun _ => 0⟩
        (Solution.evenNumbers.Admits ⟨fun _ => 0, fun _ => 0⟩)) := by
  have hw : Problem.evenNumbers.WellSorted := by decide
  have hn : Problem.evenNumbers.normalize = .ok .evenNumbers := by rfl
  have hr : (Run.start [] .evenNumbers { window := ⟨-1, 1⟩, cap := 100 }).Reachable
    { next := nextOfList } .evenNumbers := .start _ _
  refine List.forall_iff_forall_mem.mpr fun clause hmem => ?_
  obtain ⟨hmem, hcase⟩ := List.mem_filter.mp hmem
  refine (satisfiedBy_of_sat hw hn rfl rfl hr rfl solve_evenNumbers
    (soundSince_evenNumbers _) clause hmem).mpr ?_
  rw [Bool.or_eq_true, Clause.isFact, List.isEmpty_iff, Clause.isQuery, Option.isNone_iff_eq_none]
    at hcase
  refine hcase.imp_right fun hnone => .inl fun ⟨a, _, ha, _⟩ => ?_
  rw [hnone] at ha
  cases ha

/-- The rule is not satisfied: zero is an even number, and its successor is not. -/
theorem unsatisfied_evenNumbers : Problem.evenNumbers.WellSorted ∧
    Problem.evenNumbers.normalize = .ok .evenNumbers ∧
    (Running.solve { next := nextOfList } .evenNumbers {}).run.run
      (.start [] .evenNumbers { window := ⟨-1, 1⟩, cap := 100 }) =
        (.ok (.sat .evenNumbers), Run.evenNumbers) ∧
    ∀ z, Run.evenNumbers.workspace.oracle.SoundSince z 0 ∧
      ∃ clause ∈ Problem.evenNumbers.clauses,
        ¬ clause.SatisfiedBy z (Solution.evenNumbers.Admits z) := by
  refine ⟨by decide, rfl, solve_evenNumbers, fun z => ⟨soundSince_evenNumbers z, _,
    List.mem_cons_of_mem _ List.mem_cons_self, fun h => ?_⟩⟩
  obtain ⟨id, hid, i, hi, ρ, hvars, hρ⟩ := h [⟨some 0, [.int 0]⟩] ⟨some 0, [.int 1]⟩
    ⟨.default, by cbv, .cons ⟨rfl, rfl⟩ .nil, ⟨rfl, rfl⟩⟩ (List.forall_mem_singleton.mpr
      ⟨0, rfl, _, rfl, .default, rfl, by cbv⟩)
  obtain rfl := Option.some.inj hid
  obtain rfl := Option.some.inj hi
  exact not_holds_double rfl (List.singleton_inj.mp hvars) hρ

end HornSaturation
