import HornSaturation.Unit.Basic

/-!
# The store of units

Every unit that is stored keeps its identifier and its provenance for good, also when it is removed
from the active ones, so derivations can be traced afterwards. Active units are listed by relation.
Refuting units are recorded, too, but are never active.
-/

namespace HornSaturation

/-- Where a stored unit comes from. -/
inductive Provenance where
  /-- A clause without body. -/
  | fact (clause : Nat)
  /-- The resolution of a clause with stored units. -/
  | derived (nucleus : Nat) (electrons : List UnitId)
  deriving DecidableEq

namespace Provenance

/-- The clause that the unit comes from. -/
def clause : Provenance → Nat
  | fact c => c
  | derived c _ => c

/-- The units that the unit was derived from. -/
def electrons : Provenance → List UnitId
  | fact _ => []
  | derived _ es => es

end Provenance

/-- A unit in the store. -/
structure StoredUnit where
  unit : UnitClause
  provenance : Provenance
  /-- Whether the unit takes part in inferences. -/
  active : Bool

/-- The store of units. -/
structure Store where
  /-- The relations by which units are shown and compared. -/
  relations : List Relation
  /-- All units ever stored; a unit's identifier is its position. -/
  entries : Array StoredUnit := #[]
  /-- The active units of each relation, oldest first. -/
  activeUnits : List (RelationId × List UnitId) := []
  /-- The recorded refutations, oldest first. -/
  refutations : List UnitId := []
  /-- The number of changes so far. -/
  generation : Nat := 0

namespace Store

/-- Changes the entry of a key in a table, where a missing entry counts as empty. -/
def updateIds (f : List UnitId → List UnitId) (r : RelationId) :
    List (RelationId × List UnitId) → List (RelationId × List UnitId)
  | [] => [(r, f [])]
  | (s, ids) :: rest => if s = r then (s, f ids) :: rest else (s, ids) :: updateIds f r rest

/-- The number of units ever stored. -/
def size (store : Store) : Nat := store.entries.size

/-- The entry of a unit. -/
def get? (store : Store) (id : UnitId) : Option StoredUnit := store.entries[id]?

/-- The active units of a relation, oldest first. -/
def unitIds (store : Store) (r : RelationId) : List UnitId := (store.activeUnits.lookup r).getD []

/-- The active units of a relation with their identifiers, oldest first. -/
def unitsOf (store : Store) (r : RelationId) : List (UnitId × UnitClause) :=
  (store.unitIds r).filterMap fun id => (store.get? id).map fun e => (id, e.unit)

/-- Whether a unit is active. -/
def isActive (store : Store) (id : UnitId) : Bool := (store.get? id).any (·.active)

/-- The identifiers of all active units. -/
def active (store : Store) : List UnitId := (List.range store.size).filter store.isActive

/-- The number of active units. -/
def activeSize (store : Store) : Nat :=
  store.activeUnits.foldl (fun n (_, ids) => n + ids.length) 0

/-- Stores a positive unit of a relation. -/
def insert (store : Store) (u : UnitClause) (p : Provenance) : Except Error (UnitId × Store) :=
  match u.head, u.polarity with
  | some r, .positive =>
    .ok (store.size, { store with
      entries := store.entries.push ⟨u, p, true⟩
      activeUnits := updateIds (· ++ [store.size]) r store.activeUnits
      generation := store.generation + 1 })
  | _, _ => .error (.internal (.notStorable (u.render store.relations)))

/-- Makes a unit inactive. -/
def retire (store : Store) (id : UnitId) : Except Error Store :=
  match store.get? id with
  | none => .error (.internal (.noUnit id))
  | some e =>
    if e.active then
      .ok { store with
        entries := store.entries.setIfInBounds id { e with active := false }
        activeUnits := match e.unit.head with
          | some r => updateIds (·.filter (· ≠ id)) r store.activeUnits
          | none => store.activeUnits
        generation := store.generation + 1 }
    else .ok store

/-- Records a refuting unit. -/
def recordRefutation (store : Store) (u : UnitClause) (p : Provenance) :
    Except Error (UnitId × Store) :=
  if u.isRefutation then
    .ok (store.size, { store with
      entries := store.entries.push ⟨u, p, false⟩
      refutations := store.refutations ++ [store.size]
      generation := store.generation + 1 })
  else .error (.internal (.notRefutation (u.render store.relations)))

/-- Whether an active unit of the same relation has the same canonical form. -/
def containsIdentical (store : Store) (u : UnitClause) : Bool :=
  match u.head, u.canonical store.relations with
  | some r, .ok candidate =>
    (store.unitsOf r).any fun (_, stored) =>
      match stored.canonical store.relations with
      | .ok s => s.constraint = candidate.constraint
      | .error _ => false
  | _, _ => false

end Store

end HornSaturation
