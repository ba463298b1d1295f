import HornSaturation.Clause.Usage
import HornSaturation.Inference.Classification
import HornSaturation.Inference.Projection
import HornSaturation.Inference.Resolution
import HornSaturation.Inference.Saturation
import HornSaturation.Run.Basic

/-!
# Steps of a run

A unit is classified and then stored, dropped or recorded as a contradiction. The first units are
the facts of the problem, and the others come from inferences that a search strategy names. The
strategy, the simplifier and the search for redundant units are parts that can be exchanged.
-/

namespace HornSaturation

/-- The exchangeable parts of a run, with a search strategy whose state has type `σ`. -/
structure Method (σ : Type) where
  /-- The next candidate, or none if the strategy is exhausted. -/
  next : List NormalizedClause → Store → σ → Option Candidate × σ
  simplifier : Simplifier := Term.project
  subsumption : Subsumption := .byImplication

/-- Level saturation with projection and subsumption by implication. -/
def Method.standard : Method Saturation := { next := Saturation.next }

/-- A strategy that issues the candidates of a list and is then exhausted. -/
def nextOfList (_ : List NormalizedClause) (_ : Store) :
    List Candidate → Option Candidate × List Candidate
  | [] => (none, [])
  | c :: rest => (some c, rest)

namespace Running

variable {σ : Type}

/-- Removes units from the active ones. -/
def retireAll (ids : List UnitId) : Running σ Unit :=
  ids.forM fun id => changeStore fun store => return ((), ← store.retire id)

/-- Classifies a unit and does accordingly. A contradiction is recorded, and its identifier given
back. -/
def settle (m : Method σ) (u : UnitClause) (p : Provenance) : Running σ (Option UnitId) := do
  let store := (← get).units
  match ← ask (classify m.subsumption store u) with
  | .contradiction => return some (← changeStore (·.recordRefutation u p))
  | .infeasible =>
    count fun s => { s with infeasible := s.infeasible + 1 }
    report (.infeasible u)
    return none
  | .forwardSubsumed =>
    count fun s => { s with forwardSubsumed := s.forwardSubsumed + 1 }
    report (.forwardSubsumed u)
    return none
  | .new removed =>
    retireAll removed
    if !removed.isEmpty then
      count fun s => { s with backwardRemoved := s.backwardRemoved + removed.length }
      report (.backwardSubsumed removed)
    let id ← changeStore (·.insert u p)
    count fun s => { s with inserted := s.inserted + 1 }
    if m.subsumption.reported then report (.reported id)
    report (.inserted id u)
    return none

/-- Stores the facts of a problem. -/
def seed (m : Method σ) (p : NormalizedProblem) : List NormalizedClause → Running σ Unit
  | [] => return
  | c :: rest => do
    if c.isUnit && !c.isQuery then
      let u ← UnitClause.ofNormalized c
      let u ← work (.allocate (reduceUnit m.simplifier p.relations u))
      let _ ← settle m u (.fact c.index)
    seed m p rest

/-- Whether stored units serve as electrons for the uses of relations beside them. -/
def findUnfit (store : Store) : List Atom → List UnitId → Option UnitId
  | a :: body, id :: ids =>
    match store.get? id with
    | some e =>
      if e.active && e.unit.head = some a.relation then findUnfit store body ids else some id
    | none => some id
  | _, _ => none

/-- The clause and the units of a candidate, if it keeps the contract of search strategies. -/
def premises (p : NormalizedProblem) (store : Store) (c : Candidate) :
    Except Error (NormalizedClause × List UnitClause) :=
  match p.clauses[c.nucleus]? with
  | none => .error (.contract c .nucleusOutOfRange)
  | some clause =>
    if clause.body.isEmpty then .error (.contract c .emptyBody)
    else if clause.body.length ≠ c.electrons.length then
      .error (.contract c (.electronCount clause.body.length))
    else
      match findUnfit store clause.body c.electrons with
      | some id => .error (.contract c (.inactiveElectron id))
      | none => .ok (clause, c.electrons.filterMap fun id => (store.get? id).map (·.unit))

/-- Makes the inference that a candidate names. A contradiction gives its identifier. -/
def infer (m : Method σ) (p : NormalizedProblem) (trace : Bool) (c : Candidate) :
    Running σ (Option UnitId) := do
  let (nucleus, electrons) ← premises p (← get).units c
  let u ← work (.allocate (resolve m.simplifier p.relations nucleus electrons))
  count fun s => { s with derivations := s.derivations + 1 }
  if trace then report (.derived (← get).statistics.iterations c u)
  settle m u (.derived c.nucleus c.electrons)

/-- Takes the next candidate from the strategy. -/
def nextCandidate (m : Method σ) (p : NormalizedProblem) : Running σ (Option Candidate) := do
  let r ← get
  let (c, search) := m.next p.clauses r.units r.search
  set { r with search }
  return c

end Running

end HornSaturation
