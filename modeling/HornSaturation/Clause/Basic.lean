import HornSaturation.Term.Equality
import HornSaturation.Term.Printer
import HornSaturation.Vocabulary.Relation

/-!
# Horn clauses

A clause says that some relation applications and a constraint together imply a relation
application, or that they are contradictory.
-/

namespace HornSaturation

/-- A relation applied to terms. -/
structure Application where
  relation : RelationId
  args : List Term
  deriving DecidableEq

/-- A constrained Horn clause. -/
structure Clause where
  /-- The relation applications of the body. -/
  body : List Application
  /-- The constraint of the body; without one the body has no further condition. -/
  constraint : Option Term
  /-- The head; a clause without a head is a query and concludes `false`. -/
  head : Option Application
  deriving DecidableEq

/-- The text of an application, with the relation shown by its identifier. -/
def Application.render (a : Application) : String :=
  RelationId.render a.relation ++ "(" ++ ", ".intercalate (a.args.map Term.render) ++ ")"

namespace Clause

/-- Whether the clause has no relation application in its body. -/
def isFact (c : Clause) : Bool := c.body.isEmpty

/-- Whether the clause concludes `false`. -/
def isQuery (c : Clause) : Bool := c.head.isNone

/-- The constraint, where a missing one is `true`. -/
def condition (c : Clause) : Term := c.constraint.getD (.bool true)

/-- Whether a relation is applied in the body. -/
def uses (c : Clause) (r : RelationId) : Bool := c.body.any (·.relation = r)

/-- The text of a clause: its body, joined by conjunction signs, and its head. -/
def render (c : Clause) : String :=
  let parts := c.body.map Application.render ++ (c.constraint.map Term.render).toList
  let body := if parts.isEmpty then "true" else " /\\ ".intercalate parts
  body ++ " => " ++ (c.head.map Application.render).getD "false"

end Clause

end HornSaturation
