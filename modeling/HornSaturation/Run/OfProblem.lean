import HornSaturation.Clause.Normalization
import HornSaturation.Reader.Commands
import HornSaturation.Refutation.Check
import HornSaturation.Run.Solve

/-!
# Answers to problems

The whole way from a problem to its answer, with level saturation, projection and subsumption by
implication, and the check of an answer against the problem.
-/

namespace HornSaturation

/-- A problem that has been solved. -/
structure Solved where
  problem : Problem
  normalized : NormalizedProblem
  outcome : Outcome
  /-- The oracle as the solving has left it. -/
  oracle : Oracle

/-- Solves a problem with an oracle. -/
def Problem.solve (p : Problem) (o : Oracle) (c : Configuration) : Except Error Solved := do
  let normalized ← p.normalize
  let (outcome, run) := (Running.solve .standard normalized c).run.run (.start {} normalized o)
  return ⟨p, normalized, ← outcome, run.workspace.oracle⟩

namespace Solved

/-- The answer as text: a solution, a refutation or neither. -/
def render (s : Solved) : String :=
  match s.outcome with
  | .sat solution => solution.render s.normalized.relations
  | .unsat refutation => refutation.render s.normalized.relations
  | .unknown => "unknown"

/-- Checks the answer: a solution against the clauses as they were stated, a refutation step by
step. -/
def check (s : Solved) : Except Error Bool :=
  match s.outcome with
  | .sat solution => (solution.check s.problem s.oracle).1
  | .unsat refutation => (refutation.check s.normalized s.oracle).1
  | .unknown => .ok true

end Solved

end HornSaturation
