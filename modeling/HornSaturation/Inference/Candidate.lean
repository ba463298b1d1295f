/-!
# Inference candidates

A unit clause in the store is identified by its position there. A candidate names the inference to
try next: a clause, called the nucleus, and one stored unit, called an electron, for each relation
application of its body.
-/

namespace HornSaturation

/-- Stored units are identified by the order in which they were stored. -/
abbrev UnitId := Nat

/-- The display form of a unit identifier. -/
def UnitId.render (id : UnitId) : String := "u" ++ toString id

/-- The listing of unit identifiers in messages. -/
def UnitId.renderList (ids : List UnitId) : String :=
  "[" ++ ", ".intercalate (ids.map fun id => "UnitId(" ++ toString id ++ ")") ++ "]"

/-- An inference to try. -/
structure Candidate where
  /-- The index of the clause to resolve against. -/
  nucleus : Nat
  /-- The units for the body positions, in order. -/
  electrons : List UnitId
  deriving DecidableEq

/-- The form of a candidate in messages. -/
def Candidate.render (c : Candidate) : String :=
  "Candidate \x7b nucleus: " ++ toString c.nucleus ++ ", electrons: "
    ++ UnitId.renderList c.electrons ++ " \x7d"

end HornSaturation
