import HornSaturation.Inference.Redundancy

/-!
# Classification of units

A unit that stands for a contradiction is one, unless its constraint is known to have no model. Any
other unit is of no use if its constraint has no model or if a stored unit covers it; else it is
new, and stored units that it covers can go.
-/

namespace HornSaturation

/-- What is to be done with a unit. -/
inductive Classification where
  | contradiction
  | infeasible
  | forwardSubsumed
  /-- The unit is to be stored in place of some stored units. -/
  | new (removed : List UnitId)
  deriving DecidableEq

/-- Whether a unit stands for a contradiction and its constraint may have a model. -/
def hasContradiction (u : UnitClause) (o : Oracle) : Bool × Oracle :=
  if u.isRefutation then
    match o.checkWith [u.constraint] with
    | (.unsat, o) => (false, o)
    | (_, o) => (true, o)
  else (false, o)

/-- Whether a constraint is known to have no model. -/
def isInfeasible (constraint : Term) (o : Oracle) : Bool × Oracle :=
  if constraint.isFalse then (true, o)
  else
    match o.checkWith [constraint] with
    | (.unsat, o) => (true, o)
    | (_, o) => (false, o)

/-- Classifies a unit. -/
def classify (subsumption : Subsumption) (store : Store) (u : UnitClause) (o : Oracle) :
    Classification × Oracle :=
  if u.isRefutation then
    match hasContradiction u o with
    | (true, o) => (.contradiction, o)
    | (false, o) => (.infeasible, o)
  else
    match isInfeasible u.constraint o with
    | (true, o) => (.infeasible, o)
    | (false, o) =>
      if store.containsIdentical u then (.forwardSubsumed, o)
      else
        match subsumption.forward store u o with
        | (true, o) => (.forwardSubsumed, o)
        | (false, o) =>
          let (removed, o) := subsumption.backward store u o
          (.new removed, o)

end HornSaturation
