import HornSaturation.Inference.Resolution
import HornSaturation.Oracle.Workspace
import HornSaturation.Refutation.Basic
import HornSaturation.Refutation.Provenance

/-!
# Reconstructing a refutation

The provenance of a refuting unit says which units took part, and the oracle finds values: going
down from `false`, each step is asked for a model of its clause with the units that it was resolved
with and with the values that its own atom has got, and the values of the body arguments are read
off the model. A unit that is used with different values gets a node for each.
-/

namespace HornSaturation

namespace Refutation

/-- A node under construction, with the unit that it stands for. -/
structure Draft where
  unit : UnitId
  node : RefutationNode

/-- The number of the node of a unit with the given values, which is added if there is none. -/
def place (drafts : List Draft) (unit : UnitId) (atom : GroundAtom) (clause : Nat) :
    Nat × List Draft :=
  match drafts.findIdx? fun draft => draft.unit = unit ∧ draft.node.atom.args = atom.args with
  | some i => (i, drafts)
  | none => (drafts.length, drafts ++ [⟨unit, ⟨atom, clause, []⟩⟩])

/-- The equations between symbols and values. -/
def equations (vars : List Var) (values : List Value) : List Term :=
  vars.zipWith (fun v x => .equation (.var v) x.toTerm) values

/-- The stored unit with an identifier. -/
def storedUnit (store : Store) (id : UnitId) : Except Error UnitClause :=
  match store.get? id with
  | some e => .ok e.unit
  | none => .error (.internal (.noUnit id))

/-- The constraints of stored units as they are used at consecutive body positions. -/
def storedInstances (store : Store) (relations : List Relation) (clause : NormalizedClause)
    (position : Nat) : List UnitId → Allocating (List Term)
  | [] => return []
  | id :: ids => do
    let u ← storedUnit store id
    let (_, t) ← electronInstance relations clause position u
    return t :: (← storedInstances store relations clause (position + 1) ids)

/-- The values of symbols under the last model. -/
def readValues : List Var → Working (List Value)
  | [] => return []
  | v :: vs => do
    let some x := (← get).oracle.eval (.var v) | throw (.internal (.noModelValue v.name))
    return x :: (← readValues vs)

/-- Reads off the last model which atoms stand at consecutive body positions, and gives the numbers
of their nodes. -/
def placeChildren (store : Store) (relations : List Relation) (clause : NormalizedClause)
    (position : Nat) : List UnitId → List Draft → Working (List Nat × List Draft)
  | [], drafts => return ([], drafts)
  | id :: ids, drafts => do
    let values ← readValues (← clause.bodyArguments relations position)
    let some e := store.get? id | throw (.internal (.noProvenance id))
    let relation := (clause.body[position]?).map (·.relation)
    let (child, drafts) := place drafts id ⟨relation, values⟩ e.provenance.clause
    let (children, drafts) ← placeChildren store relations clause (position + 1) ids drafts
    return (child :: children, drafts)

/-- Gives a node its children. -/
def setChildren (drafts : List Draft) (i : Nat) (children : List Nat) : List Draft :=
  drafts.modify i fun draft => { draft with node := { draft.node with children } }

/-- Asks for a model of the step that derives a node, and places the nodes that it is derived from.
-/
def expandNode (store : Store) (relations : List Relation) (clause : NormalizedClause)
    (headArguments : List Var) (electrons : List UnitId) (drafts : List Draft) (i : Nat) :
    Working (List Draft) := do
  let values := ((drafts[i]?).map (·.node.atom.args)).getD []
  let instances ← Working.allocate (storedInstances store relations clause 0 electrons)
  let answer ← Working.ask fun o =>
    o.checkWith (clause.constraint :: (equations headArguments values ++ instances))
  if answer ≠ .sat then throw (.internal (.notReproducible clause.index answer))
  let (children, drafts) ← placeChildren store relations clause 0 electrons drafts
  return setChildren drafts i children

/-- The clause with an index. -/
def clauseAt (clauses : List NormalizedClause) (index : Nat) : Except Error NormalizedClause :=
  match clauses[index]? with
  | some c => .ok c
  | none => .error (.internal (.noClause index))

/-- Expands all nodes of a unit that have been placed. -/
def expandUnit (store : Store) (p : NormalizedProblem) (drafts : List Draft) (id : UnitId) :
    Working (List Draft) := do
  match (store.get? id).map StoredUnit.provenance with
  | some (.derived nucleus electrons) =>
    let clause ← clauseAt p.clauses nucleus
    let headArguments ← clause.headArguments p.relations
    let placed := (List.range drafts.length).filter fun i => (drafts[i]?).any (·.unit = id)
    placed.foldlM (expandNode store p.relations clause headArguments electrons) drafts
  | _ => return drafts

/-- The refutation that a refuting unit stands for. -/
def ofUnit (store : Store) (p : NormalizedProblem) (root : UnitId) : Working Refutation := do
  let order ← store.derivationOrder root
  let some e := store.get? root | throw (.internal (.noProvenance root))
  let (_, drafts) := place [] root ⟨none, []⟩ e.provenance.clause
  let drafts ← order.foldlM (expandUnit store p) drafts
  return ⟨drafts.map (·.node)⟩

end Refutation

end HornSaturation
