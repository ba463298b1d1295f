import HornSaturation.Inference.Projection
import HornSaturation.Term.Connectives
import HornSaturation.Unit.Instance

/-!
# Hyperresolution

A clause, the nucleus, is resolved against one unit for each use of a relation in its body. The
resolvent is a unit for the head of the clause: its constraint joins the constraint of the clause
with the constraints of the units, each with its arguments at the place of use, and keeps of all
other symbols only those that cannot be eliminated.
-/

namespace HornSaturation

/-- The constraint of a unit as it is used at a body position of a clause, with the occurrence at
which its arguments are read. That is the occurrence of the position, unless the constraint would
then mention an argument symbol of the head; in that case it is the next one. -/
def electronInstance (relations : List Relation) (nucleus : NormalizedClause) (position : Nat)
    (electron : UnitClause) : Allocating (Nat × Term) := do
  let some a := nucleus.body[position]?
    | throw (.internal (.noBodyPosition nucleus.index position))
  if electron.head ≠ some a.relation then
    throw (.internal (.wrongElectron nucleus.index position))
  let headArguments ← nucleus.headArguments relations
  let inPlace ← electron.instantiate relations a.occurrence
  if inPlace.vars.any headArguments.contains then
    return (a.occurrence + 1, ← electron.instantiate relations (a.occurrence + 1))
  return (a.occurrence, inPlace)

/-- The constraints of units as they are used at consecutive body positions. -/
def electronInstances (relations : List Relation) (nucleus : NormalizedClause) (position : Nat) :
    List UnitClause → Allocating (List Term)
  | [] => return []
  | u :: us => do
    let (_, t) ← electronInstance relations nucleus position u
    return t :: (← electronInstances relations nucleus (position + 1) us)

/-- The unit with its locals eliminated where possible, and the others renamed to fresh symbols. -/
def reduceUnit (simplifier : Simplifier) (relations : List Relation) (u : UnitClause) :
    Allocating UnitClause := do
  let args ← u.arguments relations
  let locals ← u.locals relations
  let reduced := simplifier (← get) u.constraint locals true
  let survivors := reduced.vars.filter fun v => !args.contains v
  let renamed ← freshLocals survivors
  return { u with constraint := reduced.substitute (.ofVars survivors renamed) }

/-- The resolvent of a clause with units, one for each body position. -/
def resolve (simplifier : Simplifier) (relations : List Relation) (nucleus : NormalizedClause)
    (electrons : List UnitClause) : Allocating UnitClause := do
  if !(← get).ready then throw (.internal .symbolsNotReady)
  if electrons.length ≠ nucleus.body.length then
    throw (.internal (.electronCount nucleus.index nucleus.body.length electrons.length))
  let instances ← electronInstances relations nucleus 0 electrons
  let _ ← nucleus.headArguments relations
  reduceUnit simplifier relations {
    head := nucleus.headRelation?
    polarity := .positive
    occurrence := (nucleus.head.map (·.occurrence)).getD 0
    constraint := .conjoin (nucleus.constraint :: instances) }

end HornSaturation
