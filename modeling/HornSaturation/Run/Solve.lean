import HornSaturation.Refutation.Build
import HornSaturation.Run.Step
import HornSaturation.Solution.Check

/-!
# Solving

A run stores the facts of a problem and then makes the inferences that its strategy names, until
`false` is derived or the strategy is exhausted. A derivation of `false` gives a refutation. An
exhausted search has a solution, which is the answer only if it passes a check against all clauses.
-/

namespace HornSaturation.Running

variable {σ : Type}

/-- How the search for a contradiction ends. -/
inductive SearchEnd where
  /-- A contradiction has been recorded. -/
  | refuted (root : UnitId)
  | exhausted
  | limit

/-- Searches for a contradiction in at most the given number of iterations. -/
def saturate (m : Method σ) (p : NormalizedProblem) (c : Configuration) : Nat → Running σ SearchEnd
  | 0 => if c.stops then throw .cancelled else return .limit
  | n + 1 => do
    if c.stops then throw .cancelled
    count fun s => { s with iterations := s.iterations + 1 }
    match ← nextCandidate m p with
    | none => return .exhausted
    | some candidate =>
      match ← infer m p c.trace candidate with
      | some root => return .refuted root
      | none => saturate m p c n

/-- Looks for a contradictory query among clauses without body, which no inference can derive. -/
def contradictoryQuery : List NormalizedClause → Running σ (Option UnitId)
  | [] => return none
  | c :: rest => do
    if c.isUnit && c.isQuery then
      let u ← UnitClause.ofNormalized c
      if ← ask (hasContradiction u) then
        return some (← changeStore (·.recordRefutation u (.derived c.index [])))
    contradictoryQuery rest

/-- The answer of an exhausted search: its solution, if that satisfies all clauses. -/
def conclude (m : Method σ) (p : NormalizedProblem) : Running σ Outcome := do
  let r ← get
  let solution ← Solution.ofStore m.simplifier r.workspace.symbols r.units p.relations
  if ← (← ask (solution.checkNormalized p)) then return .sat solution else return .unknown

/-- The answer for a recorded contradiction. -/
def refute (p : NormalizedProblem) (root : UnitId) : Running σ Outcome := do
  return .unsat (← work (Refutation.ofUnit (← get).units p root))

/-- Makes the problem known to the oracle and to the symbols. -/
def announce (p : NormalizedProblem) : Running σ Unit := modify fun r =>
  let oracle := p.relations.foldl Oracle.declareRelation
    (r.workspace.oracle.declareTheories p.theories)
  let symbols := r.workspace.symbols.prepare p.relations p.maxOccurrences
  { r with workspace := { oracle, symbols } }

/-- Searches for a contradiction from the facts of a problem on. -/
def search (m : Method σ) (p : NormalizedProblem) (c : Configuration) : Running σ SearchEnd := do
  announce p
  seed m p p.clauses
  saturate m p c (c.maxIterations - (← get).statistics.iterations)

/-- Solves a problem. -/
def solve (m : Method σ) (p : NormalizedProblem) (c : Configuration) : Running σ Outcome := do
  match ← search m p c with
  | .limit => return .unknown
  | .refuted root => refute p root
  | .exhausted =>
    match ← contradictoryQuery p.clauses with
    | some root => refute p root
    | none => conclude m p

end HornSaturation.Running
