import HornSaturation.Unit.Store

/-!
# The order of a derivation

The units that a stored unit was derived from, directly or not, form a graph. They are listed so
that every unit comes before the units it was derived from; this fails if a unit is missing or the
graph has a cycle.
-/

namespace HornSaturation

/-- Units with the units that they were derived from, each listed once. -/
abbrev ProvenanceGraph := List (UnitId × List UnitId)

namespace ProvenanceGraph

/-- Visits the units on a stack and all that they were derived from, in at most the given number of
steps. -/
def explore (store : Store) : Nat → (stack visited : List UnitId) → Except Error ProvenanceGraph
  | _, [], _ => .ok []
  | 0, _ :: _, _ => .ok []
  | n + 1, id :: stack, visited =>
    match store.get? id with
    | none => .error (.internal (.noProvenance id))
    | some e => do
      let children := e.provenance.electrons.eraseDups
      let fresh := children.filter fun c => !visited.contains c
      return (id, children) :: (← explore store n (fresh.reverse ++ stack) (fresh ++ visited))

/-- The graph of the units that a unit was derived from. Each step visits another stored unit, so
there are no more steps than units. -/
def ofRoot (store : Store) (root : UnitId) : Except Error ProvenanceGraph :=
  explore store (store.size + 1) [root] [root]

/-- The number of units that were derived from a unit directly. -/
def degree (g : ProvenanceGraph) (id : UnitId) : Nat :=
  g.countP fun (_, children) => children.contains id

/-- Counts down the units of a list, and gives those that have come to zero, in order. -/
def release : (children : List UnitId) → (degrees : List (UnitId × Nat)) →
    List UnitId × List (UnitId × Nat)
  | [], degrees => ([], degrees)
  | c :: rest, degrees =>
    match degrees.lookup c with
    | some (d + 1) =>
      let degrees := degrees.map fun (id, n) => if id = c then (id, d) else (id, n)
      let (ready, degrees) := release rest degrees
      (if d = 0 then c :: ready else ready, degrees)
    | _ => release rest degrees

/-- Lists units as soon as all units derived from them have been listed, in at most the given number
of steps. -/
def schedule (g : ProvenanceGraph) :
    Nat → (queue : List UnitId) → (degrees : List (UnitId × Nat)) → List UnitId
  | _, [], _ => []
  | 0, _ :: _, _ => []
  | n + 1, id :: queue, degrees =>
    let (ready, degrees) := release ((g.lookup id).getD []) degrees
    id :: schedule g n (queue ++ ready) degrees

/-- The units of a graph, each before those that it was derived from. -/
def order (g : ProvenanceGraph) (root : UnitId) : Except Error (List UnitId) :=
  let degrees := g.map fun (id, _) => (id, g.degree id)
  let roots := ((degrees.filter (·.2 = 0)).map (·.1)).mergeSort (· ≤ ·)
  if roots ≠ [root] then .error (.internal (.manyRoots root roots))
  else
    let order := schedule g g.length [root] degrees
    if order.length = g.length then .ok order else .error (.internal .cyclicProvenance)

end ProvenanceGraph

/-- A stored unit and all that it was derived from, each unit before those that it was derived
from. -/
def Store.derivationOrder (store : Store) (root : UnitId) : Except Error (List UnitId) := do
  (← ProvenanceGraph.ofRoot store root).order root

end HornSaturation
