import HornSaturation.Inference.Candidate
import HornSaturation.Oracle.Workspace
import HornSaturation.Refutation.Basic
import HornSaturation.Solution.Basic

/-!
# Runs

The state of a run holds the stored units, the state of the search strategy, the oracle and the
symbols, what has been counted and what has been reported. A step of a run may fail, and what it has
changed before stays changed.

The number of iterations is limited. Without a limit of its own a run may take as many as a machine
word can count. Time is observed only in so far as a budget of zero is used up from the start.
-/

namespace HornSaturation

/-- What bounds a run, and whether derivations are reported. -/
structure Configuration where
  /-- The number of iterations after which the run gives up. -/
  limit : Option Nat := none
  /-- The time budget in milliseconds. -/
  timeout : Option Nat := none
  /-- Whether the run has been cancelled. -/
  cancelled : Bool := false
  /-- Whether derivations are reported. -/
  trace : Bool := false

/-- Whether a run has to stop. -/
def Configuration.stops (c : Configuration) : Bool := c.cancelled || c.timeout = some 0

/-- The greatest number of iterations. -/
def Configuration.maxIterations (c : Configuration) : Nat := c.limit.getD Text.indexMax

/-- What a run has counted. -/
structure Statistics where
  iterations : Nat := 0
  derivations : Nat := 0
  infeasible : Nat := 0
  forwardSubsumed : Nat := 0
  backwardRemoved : Nat := 0
  inserted : Nat := 0
  deriving DecidableEq

/-- What a run reports. -/
inductive Event where
  /-- An inference has been made. -/
  | derived (iteration : Nat) (candidate : Candidate) (unit : UnitClause)
  | infeasible (unit : UnitClause)
  | forwardSubsumed (unit : UnitClause)
  | backwardSubsumed (removed : List UnitId)
  /-- The search for redundant units has been told of a stored unit. -/
  | reported (id : UnitId)
  | inserted (id : UnitId) (unit : UnitClause)

/-- The outcome of a run. -/
inductive Outcome where
  | sat (solution : Solution)
  | unsat (refutation : Refutation)
  | unknown

/-- The state of a run. -/
structure Run (σ : Type) where
  /-- The state of the search strategy. -/
  search : σ
  units : Store
  statistics : Statistics := {}
  /-- What has been reported, oldest first. -/
  events : List Event := []
  workspace : Workspace

/-- A step of a run. -/
abbrev Running (σ : Type) := ExceptT Error (StateM (Run σ))

/-- The state before a problem is solved, with the state of a search strategy. -/
def Run.start {σ : Type} (search : σ) (p : NormalizedProblem) (oracle : Oracle) : Run σ where
  search
  units := { relations := p.relations }
  workspace := { oracle }

namespace Running

variable {σ : Type}

/-- Works with the oracle and the symbols of the run. -/
def work {α : Type} (step : Working α) : Running σ α :=
  ExceptT.mk fun r =>
    let (result, workspace) := step.run.run r.workspace
    (result, { r with workspace })

/-- Asks the oracle of the run. -/
def ask {α : Type} (question : Oracle → α × Oracle) : Running σ α := work (.ask question)

/-- Reports an event. -/
def report (e : Event) : Running σ Unit := modify fun r => { r with events := r.events ++ [e] }

/-- Counts. -/
def count (f : Statistics → Statistics) : Running σ Unit :=
  modify fun r => { r with statistics := f r.statistics }

/-- Changes the stored units by a step that may fail and that gives something back. -/
def changeStore {α : Type} (f : Store → Except Error (α × Store)) : Running σ α := do
  let (a, units) ← f (← get).units
  modify fun r => { r with units }
  return a

end Running

end HornSaturation
