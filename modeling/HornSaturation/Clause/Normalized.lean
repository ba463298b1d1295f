import HornSaturation.Diagnostics

/-!
# Normalized clauses

In a normalized clause the body and the head only name uses of relations. What the arguments of a
use are is said by the constraint, which speaks about the argument symbols of that use. Uses of one
relation in one clause are told apart by their occurrence numbers.
-/

namespace HornSaturation

/-- A use of a relation in a clause. -/
structure Atom where
  relation : RelationId
  occurrence : Nat
  deriving DecidableEq

/-- The argument symbols of a use of a relation. -/
def Atom.arguments (relations : List Relation) (a : Atom) : Except Error (List Var) :=
  match relation? relations a.relation with
  | some r => .ok (r.arguments a.occurrence)
  | none => .error (.undefinedRelation a.relation)

/-- A clause whose arguments are bound by its constraint. -/
structure NormalizedClause where
  /-- The index of the clause in its problem. -/
  index : Nat
  /-- The uses of relations in the body. -/
  body : List Atom
  /-- The use of a relation in the head; a clause without head concludes `false`. -/
  head : Option Atom
  /-- The formula over argument symbols and the variables of the clause. -/
  constraint : Term
  deriving DecidableEq

namespace NormalizedClause

/-- Whether the clause concludes `false`. -/
def isQuery (c : NormalizedClause) : Bool := c.head.isNone

/-- Whether the body uses no relation. -/
def isUnit (c : NormalizedClause) : Bool := c.body.isEmpty

/-- The relation of the head. -/
def headRelation? (c : NormalizedClause) : Option RelationId := c.head.map (·.relation)

/-- The argument symbols of the head; none for the head `false`. -/
def headArguments (relations : List Relation) (c : NormalizedClause) : Except Error (List Var) :=
  match c.head with
  | some a => a.arguments relations
  | none => .ok []

/-- The argument symbols of a body position. -/
def bodyArguments (relations : List Relation) (c : NormalizedClause) (position : Nat) :
    Except Error (List Var) :=
  match c.body[position]? with
  | some a => a.arguments relations
  | none => .error (.internal (.noBodyPosition c.index position))

/-- The relations that the clause uses, in increasing order. -/
def relations (c : NormalizedClause) : List RelationId :=
  ((c.body ++ c.head.toList).map (·.relation)).eraseDups.mergeSort (· ≤ ·)

end NormalizedClause

/-- A problem in normalized form. -/
structure NormalizedProblem where
  /-- The declared relations. -/
  relations : List Relation
  /-- The clauses; each carries its position here as its index. -/
  clauses : List NormalizedClause
  deriving DecidableEq

end HornSaturation
