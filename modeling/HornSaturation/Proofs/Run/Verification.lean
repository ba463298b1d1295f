import HornSaturation.Proofs.Refutation.Check
import HornSaturation.Proofs.Refutation.Soundness
import HornSaturation.Proofs.Solution.Soundness
import HornSaturation.Proofs.Solution.Stated
import HornSaturation.Run.OfProblem
import Mathlib

/-!
# Answers and their verification

An answer can be checked by the oracle that the run has used. The check never comes to an error,
and it succeeds unless the oracle is of no help. What it asks about a solution are formulas for the
stated clauses, and the run has asked about the normalized ones; the oracle may be undecided about
the former, or it has confirmed a formula of the latter that is false outside the window. What it
asks about a refutation has a model, which the oracle need not find.
-/

namespace HornSaturation

/-- Why the check of an answer fails. The oracle is undecided about the formula of a stated clause;
or it finds the formula of a clause invalid that the solution does not satisfy, but takes the
formula of the normalized clause for valid, which is false under some valuation; or it finds no
model of the formulas for a node, though they have one. -/
inductive Solved.Unconfirmed (s : Solved) : Prop
  | undecided (solution : Solution) (i : Nat) (clause : Clause) (t : Term)
      (outcome : s.outcome = .sat solution)
      (stated : s.problem.clauses[i]? = some clause)
      (formula : solution.clauseFormula? i clause = .ok (some t))
      (answer : (s.oracle.checkValid t).1 = .unknown)
  | overlooked (solution : Solution) (i : Nat) (clause : Clause) (nc : NormalizedClause)
      (t t' : Term)
      (outcome : s.outcome = .sat solution)
      (stated : s.problem.clauses[i]? = some clause)
      (formula : solution.clauseFormula? i clause = .ok (some t))
      (answer : (s.oracle.checkValid t).1 = .invalid)
      (normalized : s.normalized.clauses[i]? = some nc)
      (formula' : solution.normalizedFormula? s.normalized.relations nc = .ok (some t'))
      (answer' : (s.oracle.checkValid t').1 = .valid)
      (false : ∀ z, ∃ ρ : Valuation, ¬ t'.Holds z ρ)
      (unsatisfied : ∀ z, ¬ clause.SatisfiedBy z (solution.Admits z))
  | unrealized (refutation : Refutation) (node : RefutationNode) (ts : List Term)
      (outcome : s.outcome = .unsat refutation)
      (node_mem : node ∈ refutation.nodes)
      (formulas : refutation.obligations? s.normalized node = .ok (some ts))
      (answer : (s.oracle.checkWith ts).1 ≠ .sat)
      (model : ∀ z, ∃ ρ : Valuation, ∀ t ∈ ts, t.Holds z ρ)

variable {p : Problem} {np : NormalizedProblem} {o : Oracle}

/-- A solution that has passed the check in normalized form passes the check of the stated problem,
unless the oracle is of no help. -/
theorem Solution.check_or_unconfirmed {s : Solution} {o₀ : Oracle} (hw : p.WellSorted)
    (hn : p.normalize = .ok np) (hone : ∀ c ∈ p.clauses, OneSort c.occurrences)
    (hs : s.Interprets np.relations) (hasked : o₀.Asked o)
    (hchecked : (s.checkNormalized np o₀).1 = .ok true) (ho : o.assertions = []) :
    (s.check p o).1 = .ok true ∨
      (s.check p o).1 = .ok false ∧ Solved.Unconfirmed ⟨p, np, .sat s, o⟩ := by
  have hform := p.normalForm_of_normalize hw hn
  have hs' : s.Interprets p.relations := hform.relations ▸ hs
  have hformulas : ∀ entry ∈ p.clauses.zipIdx, ∃ t?,
      s.clauseFormula? entry.2 entry.1 = .ok t? := fun entry hmem =>
    hs'.exists_clauseFormula? hw.relations
      (hw.clauses _ (List.mem_of_getElem? (List.mem_zipIdx_iff_getElem?.mp hmem))) entry.2
  refine (checkAll_or hformulas).imp_right ?_
  rintro ⟨hfalse, ⟨clause, i⟩, hmem, t, ht, hopen⟩
  have hclause : p.clauses[i]? = some clause := List.mk_mem_zipIdx_iff_getElem?.mp hmem
  refine ⟨hfalse, ?_⟩
  cases hanswer : (o.checkValid t).1 with
  | valid => exact absurd hanswer hopen
  | unknown => exact .undecided s i clause t rfl hclause ht hanswer
  | invalid =>
    have hmem' := List.mem_of_getElem? hclause
    have hsorted := hw.clauses clause hmem'
    have hplain := Problem.plain_of_normalize hn hmem'
    obtain ⟨hpasses, hspec⟩ := hs'.clauseFormula?_spec hw.relations hsorted hplain ht
    obtain ⟨hsort, hocc, hholds⟩ := hspec t rfl
    have honeSort : OneSort t.occurrences :=
      hs'.oneSort_of_plain hw.relations hsorted hplain (hone clause hmem') hocc
    -- A formula that is found invalid is false under a valuation, so the clause is not satisfied.
    have hunsatisfied : ∀ z, ¬ clause.SatisfiedBy z (s.Admits z) := fun z hsatisfied => by
      obtain ⟨ρ, hρ⟩ := Oracle.exists_not_holds_of_invalid hanswer ho honeSort hsort z
      exact hρ ((hholds z).mpr hsatisfied ρ)
    obtain ⟨nc, hnc, hnf⟩ := hform.getElem? hclause
    have hregular := ((hform.regular hw).clause i nc hnc).2
    obtain ⟨t?, ht?, hvalid⟩ := checkAll_confirms hchecked nc (List.mem_of_getElem? hnc)
    obtain ⟨hpasses', hspec'⟩ := hs.normalizedFormula?_spec hregular ht?
    cases t? with
    | none => exact absurd (hpasses.mpr ((passesOver_spelled hnf).mp (hpasses'.mp rfl))) nofun
    | some t' =>
      refine .overlooked s i clause nc t t' rfl hclause ht hanswer hnc ht?
        ((hasked.checkValid_fst t').trans (hvalid t' rfl)) (fun z => ?_) hunsatisfied
      refine Classical.not_forall.mp fun hall => hunsatisfied z ?_
      exact hnf.satisfiedBy.mp (((hspec' t' rfl).2 z).mp hall)

/-- A genuine refutation passes the check, unless the oracle does not find a model that there is. -/
theorem Refutation.check_or_unconfirmed {r : Refutation} (hw : p.WellSorted)
    (hn : p.normalize = .ok np) (hr : r.Genuine p) :
    (r.check np o).1 = .ok true ∨
      (r.check np o).1 = .ok false ∧ Solved.Unconfirmed ⟨p, np, .unsat r, o⟩ := by
  have hform := p.normalForm_of_normalize hw hn
  have hmodel : ∀ node ∈ r.nodes, ∃ ts, obligations? np r node = .ok (some ts) ∧
      ∀ z, ∃ ρ : Valuation, ∀ t ∈ ts, t.Holds z ρ := fun node hnode => by
    have hspec (z : ZeroDivision) :=
      obligations?_of_stepAt (hform.regular hw) (hr.stepAt hform hnode z)
    obtain ⟨ts, hts, -⟩ := hspec default
    refine ⟨ts, hts, fun z => ?_⟩
    obtain ⟨ts', hts', hholds⟩ := hspec z
    obtain rfl := Option.some.inj (Except.ok.inj (hts.symm.trans hts'))
    exact hholds
  have hformulas : ∀ node ∈ r.nodes, ∃ ts, obligations? np r node = .ok (some ts) :=
    fun node hnode => (hmodel node hnode).imp fun _ h => h.1
  have hcheck : r.check np o = checkNodes np r r.nodes o := by
    obtain ⟨root, hroot, hfalsum⟩ := hr.root
    unfold check
    cases hnodes : r.nodes with
    | nil =>
      rw [hnodes] at hroot
      cases hroot
    | cons node nodes =>
      rw [hnodes] at hroot
      obtain rfl : node = root := Option.some.inj hroot
      exact if_pos (congrArg GroundAtom.relation hfalsum)
  rw [hcheck]
  refine (checkNodes_or hformulas).imp_right ?_
  rintro ⟨hfalse, node, hnode, ts, hts, hopen⟩
  obtain ⟨ts', hts', hholds⟩ := hmodel node hnode
  obtain rfl := Option.some.inj (Except.ok.inj (hts.symm.trans hts'))
  exact ⟨hfalse, .unrealized r node ts rfl hnode hts hopen hholds⟩

variable {σ : Type} {m : Method σ} {c : Configuration} {r r' : Run σ} {outcome : Outcome}

/-- The check of an answer comes to no error, and it succeeds unless the oracle is undecided about a
clause, has overlooked that a solution does not satisfy one, or does not find a model that the
formulas for a node have. -/
theorem verified_or_unconfirmed (hw : p.WellSorted)
    (hone : ∀ clause ∈ p.clauses, OneSort clause.occurrences) (hn : p.normalize = .ok np)
    (hm : m.IsUsual) (hr : r.Reachable m np) (ho : r.workspace.oracle.assertions = [])
    (h : (Running.solve m np c).run.run r = (.ok outcome, r')) :
    Solved.check ⟨p, np, outcome, r'.workspace.oracle⟩ = .ok true ∨
      Solved.check ⟨p, np, outcome, r'.workspace.oracle⟩ = .ok false ∧
        Solved.Unconfirmed ⟨p, np, outcome, r'.workspace.oracle⟩ := by
  have hform := p.normalForm_of_normalize hw hn
  have hreg := hform.regular hw
  have hs := hr.sound hreg hm
  have hsolved := (Running.ensures_solve hreg hm hs).of_ok h
  cases outcome with
  | sat solution =>
    obtain ⟨⟨symbols, hbuilt⟩, ⟨o, -, hchecked⟩, -⟩ := hsolved.sat solution rfl
    rw [hm.simplifier] at hbuilt
    obtain ⟨hinterprets, -⟩ :=
      Solution.ofStore_spec (z := default) hreg.relations hsolved.steps.sound hbuilt
    have hasked : o.Asked (solution.checkNormalized np o).2 := Solution.checkAll_asked
    rw [hchecked] at hasked
    exact Solution.check_or_unconfirmed hw hn hone hinterprets hasked (by rw [hchecked])
      (hsolved.steps.later.assertions.trans ho)
  | unsat refutation =>
    have hgenuine := (hsolved.unsat refutation rfl).genuine hform hreg (hform.oneSorted hone)
      (.plain ho)
    exact Refutation.check_or_unconfirmed hw hn hgenuine
  | unknown => exact .inl rfl

/-- A fact about the squares of numbers from two on. -/
def Problem.squares : Problem where
  relations := [⟨0, "P", [.int]⟩]
  clauses := [⟨[], some (.op .ge [.var ⟨"y", .int⟩, .int 2]),
    some ⟨0, [.op .mul [.var ⟨"y", .int⟩, .var ⟨"y", .int⟩]]⟩⟩]

/-- The normalized form of this problem. -/
def NormalizedProblem.squares : NormalizedProblem where
  relations := [⟨0, "P", [.int]⟩]
  clauses := [⟨0, [], some ⟨0, 0⟩,
    .op .and [.op .eq [.var ⟨"P@0_0", .int⟩, .op .mul [.var ⟨"y", .int⟩, .var ⟨"y", .int⟩]],
      .op .ge [.var ⟨"y", .int⟩, .int 2]]⟩]

/-- The interpretation by no numbers. -/
def Solution.noSquares : Solution := ⟨[(0, ⟨[⟨"x0", .int⟩], [], .bool false⟩)]⟩

/-- The state in which this problem is solved by an oracle that finds no square in its window. -/
def Run.squares : Run Saturation :=
  ((Running.solve .standard .squares {}).run.run
    (.start {} .squares { window := ⟨0, 0⟩, cap := 100 })).2

theorem solve_squares : (Running.solve .standard .squares {}).run.run
    (.start {} .squares { window := ⟨0, 0⟩, cap := 100 }) =
    (.ok (.sat .noSquares), Run.squares) := by
  refine Prod.ext ?_ rfl
  cbv

theorem unconfirmed_squares : Solved.Unconfirmed
    ⟨.squares, .squares, .sat .noSquares, Run.squares.workspace.oracle⟩ := by
  have hw : Problem.squares.WellSorted := by decide
  have hone : ∀ clause ∈ Problem.squares.clauses, OneSort clause.occurrences := by decide
  have hn : Problem.squares.normalize = .ok .squares := by rfl
  have hm : Method.IsUsual .standard := ⟨rfl, Subsumption.byImplication_onlyAsks⟩
  have hr : (Run.start {} .squares { window := ⟨0, 0⟩, cap := 100 }).Reachable .standard
    .squares := .start _ _
  rcases verified_or_unconfirmed hw hone hn hm hr rfl solve_squares with hverified | ⟨-, h⟩
  · have hfalse : Solved.check ⟨.squares, .squares, .sat .noSquares,
        Run.squares.workspace.oracle⟩ = .ok false := by cbv
    rw [hfalse] at hverified
    cases Except.ok.inj hverified
  · exact h

/-- A problem about a relation and another one with some name. -/
def Problem.ofClauses (name : String) (sort : BaseSort) (clauses : List Clause) : Problem where
  relations := [⟨0, "P", [sort]⟩, ⟨1, name, [sort]⟩]
  clauses := clauses

/-- The query whether a relation holds of zero. -/
def Clause.isZero : Clause := ⟨[⟨0, [.int 0]⟩], none, none⟩

/-- A fact about the numbers with a square of at least five, and a rule about a number whose square
overflows. -/
def Problem.overflowing : Problem := .ofClauses "Q" .int [
  ⟨[], some (.op .ge [.op .mul [.var ⟨"x", .int⟩, .var ⟨"x", .int⟩], .int 5]),
    some ⟨0, [.var ⟨"x", .int⟩]⟩⟩,
  ⟨[⟨0, [.int 4000000000]⟩], none, some ⟨1, [.int 0]⟩⟩]

/-- A fact about zero under a condition on another number. -/
def Problem.conditional : Problem := .ofClauses "Q" .int [
  ⟨[], some (.op .eq [.var ⟨"y", .int⟩, .int 0]), some ⟨0, [.int 0]⟩⟩, .isZero]

/-- A fact under a condition that is not well sorted. -/
def Problem.illSorted : Problem := .ofClauses "Q" .int [
  ⟨[], some (.op .eq [.var ⟨"y", .bool⟩, .op .not [.int 5]]), some ⟨0, [.int 0]⟩⟩, .isZero]

/-- A fact with a relation applied in its argument. -/
def Problem.nested : Problem := .ofClauses "Q" .int [
  ⟨[], some (.op .eq [.var ⟨"y", .int⟩, .int 0]),
    some ⟨0, [.op .mul [.var ⟨"y", .int⟩, .app "Q" 1 [.int 1]]]⟩⟩, .isZero]

/-- A rule in which one name has two sorts. -/
def Problem.twoSorts : Problem := .ofClauses "Q" .int [
  ⟨[], none, some ⟨0, [.int 0]⟩⟩,
  ⟨[⟨0, [.var ⟨"b", .int⟩]⟩], some (.op .and [.op .ne [.var ⟨"b", .bool⟩, .bool true],
    .op .ne [.var ⟨"b", .bool⟩, .bool false]]), some ⟨1, [.int 0]⟩⟩]

/-- A fact and a rule about two relations of one name. -/
def Problem.sameName : Problem := .ofClauses "P" .bool [
  ⟨[], none, some ⟨0, [.bool true]⟩⟩, ⟨[⟨0, [.bool true]⟩], none, some ⟨1, [.bool false]⟩⟩]

/-- A fact about all numbers. -/
def Problem.anyNumber : Problem := .ofClauses "Q" .int [
  ⟨[], none, some ⟨0, [.var ⟨"y", .int⟩]⟩⟩, .isZero]

/-- The answer to a problem does not pass the check. -/
def Problem.Unverified (p : Problem) (o : Oracle) : Prop :=
  (p.solve o {} >>= Solved.check) = .ok false

/-- Answers to well-sorted problems do not pass the check where a value overflows, or where a square
or a combination of values is out of reach. Neither do answers to problems that are not well sorted,
in which a relation is applied in an argument or a name has two sorts in a clause, or in which two
relations have one name, nor answers of an oracle with an assertion about a variable. -/
theorem unverified_answers :
    Problem.overflowing.Unverified { window := ⟨0, 0⟩, cap := 100 } ∧
    Problem.squares.Unverified { window := ⟨0, 0⟩, cap := 100 } ∧
    Problem.conditional.Unverified { window := ⟨0, 1⟩, cap := 2 } ∧
    Problem.illSorted.Unverified { window := ⟨0, 0⟩, cap := 100 } ∧
    Problem.nested.Unverified { window := ⟨0, 0⟩, cap := 100 } ∧
    Problem.twoSorts.Unverified { window := ⟨0, 0⟩, cap := 100 } ∧
    Problem.sameName.Unverified { window := ⟨0, 0⟩, cap := 100 } ∧
    Problem.anyNumber.Unverified
      { window := ⟨0, 1⟩, cap := 100, assertions := [.op .eq [.var ⟨"y", .int⟩, .int 1]] } := by
  unfold Problem.Unverified
  refine ⟨?_, ?_, ?_, ?_, ?_, ?_, ?_, ?_⟩
  · cbv
  · cbv
  · cbv
  · cbv
  · cbv
  · cbv
  · cbv
  · cbv

end HornSaturation
