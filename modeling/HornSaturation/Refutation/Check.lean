import HornSaturation.Refutation.Build

/-!
# Checking a refutation

A refutation is checked node by node, without regard to where it comes from: each node has to fit
its clause, and the constraint of the clause has to have a model in which the arguments have the
values of the node and of its children. An open answer of the oracle fails the check.
-/

namespace HornSaturation

namespace Refutation

/-- The equations for the arguments at consecutive body positions, if the children fit. -/
def childEquations? (p : NormalizedProblem) (r : Refutation) (clause : NormalizedClause)
    (position : Nat) : List Nat → Except Error (Option (List Term))
  | [] => .ok (some [])
  | i :: rest =>
    match r.nodes[i]?, clause.body[position]? with
    | some child, some a =>
      if child.atom.relation = some a.relation then do
        let vars ← clause.bodyArguments p.relations position
        let more ← childEquations? p r clause (position + 1) rest
        return more.map (equations vars child.atom.args ++ ·)
      else .ok none
    | _, _ => .ok none

/-- The formulas that have to have a common model for a node to be right, if it fits its clause. -/
def obligations? (p : NormalizedProblem) (r : Refutation) (node : RefutationNode) :
    Except Error (Option (List Term)) :=
  match p.clauses[node.clause]? with
  | none => .ok none
  | some clause =>
    if node.atom.relation = clause.headRelation? ∧ node.children.length = clause.body.length then do
      let headArguments ← clause.headArguments p.relations
      if headArguments.length = node.atom.args.length then
        let more ← childEquations? p r clause 0 node.children
        return more.map fun more =>
          clause.constraint :: (equations headArguments node.atom.args ++ more)
      else return none
    else .ok none

/-- Checks the nodes of a list. -/
def checkNodes (p : NormalizedProblem) (r : Refutation) :
    List RefutationNode → Oracle → Except Error Bool × Oracle
  | [], o => (.ok true, o)
  | node :: rest, o =>
    match obligations? p r node with
    | .error e => (.error e, o)
    | .ok none => (.ok false, o)
    | .ok (some formulas) =>
      match o.checkWith formulas with
      | (.sat, o) => checkNodes p r rest o
      | (_, o) => (.ok false, o)

/-- Checks that a refutation has the root `false` and that each of its steps holds. -/
def check (p : NormalizedProblem) (r : Refutation) (o : Oracle) : Except Error Bool × Oracle :=
  match r.nodes with
  | root :: _ => if root.atom.relation = none then checkNodes p r r.nodes o else (.ok false, o)
  | [] => (.ok false, o)

end Refutation

end HornSaturation
