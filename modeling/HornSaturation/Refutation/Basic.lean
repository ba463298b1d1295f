import HornSaturation.Clause.Normalized
import HornSaturation.Text.Json

/-!
# Refutations

A refutation is a derivation of `false` from ground atoms. Its nodes form a graph: each node is an
atom, the clause that derives it, and for each use of a relation in the body of the clause the node
that provides it. Node zero is the root.
-/

namespace HornSaturation

/-- A relation applied to values; no relation stands for `false`. -/
structure GroundAtom where
  relation : Option RelationId
  args : List Value
  deriving DecidableEq

/-- The text of a ground atom. -/
def GroundAtom.render (relations : List Relation) (a : GroundAtom) : String :=
  match a.relation with
  | none => "false"
  | some r =>
    let name := match relations[r]? with
      | some relation => relation.name
      | none => RelationId.render r
    name ++ "(" ++ ", ".intercalate (a.args.map Value.render) ++ ")"

/-- A step of a refutation. -/
structure RefutationNode where
  atom : GroundAtom
  /-- The index of the clause that derives the atom. -/
  clause : Nat
  /-- The nodes for the body positions of the clause. -/
  children : List Nat
  deriving DecidableEq

/-- A derivation of `false`. -/
structure Refutation where
  nodes : List RefutationNode := []
  deriving DecidableEq

namespace Refutation

/-- The nodes without children. -/
def leaves (r : Refutation) : List RefutationNode := r.nodes.filter (·.children.isEmpty)

/-- The line for a node: its number, its atom, its clause and its children. -/
def renderNode (relations : List Relation) (number : Nat) (node : RefutationNode) : String :=
  let children := if node.children.isEmpty then ""
    else "  <- " ++ ", ".intercalate (node.children.map toString)
  toString number ++ ": " ++ node.atom.render relations
    ++ "  [clause " ++ toString node.clause ++ "]" ++ children ++ "\n"

/-- The text of a refutation, a line for each node. -/
def render (relations : List Relation) (r : Refutation) : String :=
  String.join (r.nodes.mapIdx (renderNode relations))

/-- The JSON form of a value. -/
def valueJson : Value → JsonValue
  | .bool b => .bool b
  | .int n => .int n

/-- The JSON form of a node, with its relation named. -/
def nodeJson (relations : List Relation) (number : Nat) (node : RefutationNode) : JsonValue :=
  let relation := (node.atom.relation.bind (relations[·]?)).map (·.name)
  .ofFields [
    ("id", .int number),
    ("relation", (relation.map .string).getD .null),
    ("args", .array (node.atom.args.map valueJson)),
    ("clause", .int node.clause),
    ("children", .array (node.children.map fun (c : Nat) => .int c))]

/-- The JSON form of a refutation. -/
def toJson (relations : List Relation) (r : Refutation) : JsonValue :=
  .ofFields [("root", .int 0), ("nodes", .array (r.nodes.mapIdx (nodeJson relations)))]

end Refutation

end HornSaturation
