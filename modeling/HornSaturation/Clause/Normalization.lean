import HornSaturation.Clause.Normalized
import HornSaturation.Clause.Problem
import HornSaturation.Term.Connectives
import HornSaturation.Term.Variables

/-!
# Normalization

The uses of a relation in a body are numbered from zero, and the head comes after the uses of its
relation in the body; so no two uses in a clause share an argument symbol. Every argument becomes an
equation between its symbol and the term that stood there. Names with the characters that mark
argument symbols and generated symbols are refused in clauses, so that no variable of a clause can
be mistaken for either.
-/

namespace HornSaturation

/-- Whether a name contains one of the characters that mark generated symbols. -/
def isReserved (name : String) : Bool := name.toList.any fun c => c = '@' || c = '!'

/-- The terms of a clause: arguments of the body, arguments of the head, constraint. -/
def Clause.terms (c : Clause) : List Term :=
  (c.body ++ c.head.toList).flatMap (·.args) ++ c.constraint.toList

/-- The first variable of a clause with a reserved name. -/
def Clause.reservedVar? (c : Clause) : Option Var :=
  c.terms.findSome? fun t => t.vars.find? fun v => isReserved v.name

/-- Numbers the uses of relations, given the relations used before. -/
def numberUses (before : List RelationId) : List Application → List (Atom × List Term)
  | [] => []
  | a :: rest =>
    (⟨a.relation, before.count a.relation⟩, a.args) :: numberUses (a.relation :: before) rest

/-- The equations between the argument symbols of a use and the terms that stand there. -/
def bindArguments (relations : List Relation) (use : Atom × List Term) :
    Except Error (List Term) := do
  let symbols ← use.1.arguments relations
  return symbols.zipWith (fun v t => .equation (.var v) t) use.2

/-- Whether a clause constraint contains a relation application. -/
def Clause.hasAppliedConstraint (c : Clause) : Bool := c.constraint.any Term.containsApp

/-- The normalized form of the clause at an index. -/
def Clause.normalize (relations : List Relation) (index : Nat) (c : Clause) :
    Except Error NormalizedClause := do
  if let some v := c.reservedVar? then throw (.input (.reservedVariable index v.name))
  let body := numberUses [] c.body
  let head := c.head.map fun a =>
    (Atom.mk a.relation ((c.body.map (·.relation)).count a.relation), a.args)
  let equations ← (body ++ head.toList).mapM (bindArguments relations)
  if c.hasAppliedConstraint then throw (.input (.applicationInConstraint index))
  return {
    index
    body := body.map (·.1)
    head := head.map (·.1)
    constraint := .conjoin (equations.flatten ++ c.constraint.toList) }

/-- The normalized form of a problem; its clauses have to be well formed. -/
def Problem.normalize (p : Problem) : Except Error NormalizedProblem := do
  p.validate
  let clauses ← p.clauses.zipIdx.mapM fun (c, index) => c.normalize p.relations index
  return ⟨p.relations, clauses⟩

end HornSaturation
