import HornSaturation.Oracle.Basic
import HornSaturation.Unit.Store

/-!
# Subsumption

A unit makes another unit of its relation redundant if it covers at least the same arguments. This
is certain for units with the same canonical form, and for a unit without locals whose constraint
the other constraint implies. An open answer of the oracle never makes a unit redundant.
-/

namespace HornSaturation

/-- A way to find redundant units. -/
structure Subsumption where
  /-- Whether a stored unit makes a new one redundant. -/
  forward : Store → UnitClause → Oracle → Bool × Oracle
  /-- The stored units that a new one makes redundant. -/
  backward : Store → UnitClause → Oracle → List UnitId × Oracle
  /-- Whether the storing of each unit is to be reported back. -/
  reported : Bool := false

namespace Subsumption

/-- The canonical constraint of a unit, with the news whether it has locals. -/
def aligned? (relations : List Relation) (u : UnitClause) : Option (Term × Bool) :=
  match u.canonical relations with
  | .error _ => none
  | .ok c =>
    match c.locals relations with
    | .error _ => none
    | .ok locals => some (c.constraint, !locals.isEmpty)

/-- Whether a canonical constraint is covered by one of a list of units. -/
def coveredByAny (relations : List Relation) (candidate : Term) :
    List (UnitId × UnitClause) → Oracle → Bool × Oracle
  | [], o => (false, o)
  | (_, u) :: rest, o =>
    match aligned? relations u with
    | none => coveredByAny relations candidate rest o
    | some (stored, storedLocals) =>
      if stored = candidate then (true, o)
      else if storedLocals then coveredByAny relations candidate rest o
      else
        match o.implies candidate stored with
        | (true, o) => (true, o)
        | (false, o) => coveredByAny relations candidate rest o

/-- The units of a list that a canonical constraint covers. -/
def coveredBy (relations : List Relation) (candidate : Term) (candidateLocals : Bool) :
    List (UnitId × UnitClause) → Oracle → List UnitId × Oracle
  | [], o => ([], o)
  | (id, u) :: rest, o =>
    let (covered, o) := match aligned? relations u with
      | none => (false, o)
      | some (stored, _) =>
        if stored = candidate then (true, o)
        else if candidateLocals then (false, o)
        else o.implies stored candidate
    let (ids, o) := coveredBy relations candidate candidateLocals rest o
    (if covered then id :: ids else ids, o)

/-- Subsumption by implication between constraints. -/
def byImplication : Subsumption where
  forward store u o :=
    match u.head, aligned? store.relations u with
    | some r, some (candidate, _) => coveredByAny store.relations candidate (store.unitsOf r) o
    | _, _ => (false, o)
  backward store u o :=
    match u.head, aligned? store.relations u with
    | some r, some (candidate, hasLocals) =>
      coveredBy store.relations candidate hasLocals (store.unitsOf r) o
    | _, _ => ([], o)

/-- Takes no unit for redundant, and asks for reports. -/
def never : Subsumption where
  forward _ _ o := (false, o)
  backward _ _ o := ([], o)
  reported := true

end Subsumption

end HornSaturation
