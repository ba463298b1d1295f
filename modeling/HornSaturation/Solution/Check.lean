import HornSaturation.Clause.Problem
import HornSaturation.Oracle.Basic
import HornSaturation.Solution.Basic

/-!
# Checking a solution

A solution satisfies a clause if the interpretations of its body and its constraint imply the
interpretation of its head. This is checked against the clauses as they were stated, or in
normalized form. A clause whose head is interpreted with existential variables is passed over, and
an open answer of the oracle fails the check.
-/

namespace HornSaturation

namespace Solution

/-- Checks formulas for validity, one after the other; a missing formula is passed over. -/
def checkAll {α : Type} (formula? : α → Except Error (Option Term)) :
    List α → Oracle → Except Error Bool × Oracle
  | [], o => (.ok true, o)
  | a :: rest, o =>
    match formula? a with
    | .error e => (.error e, o)
    | .ok none => checkAll formula? rest o
    | .ok (some t) =>
      match o.checkValid t with
      | (.valid, o) => checkAll formula? rest o
      | (_, o) => (.ok false, o)

/-- The interpretations of the applications in the body of a clause, from a position on. -/
def bodyFormulas (s : Solution) (index position : Nat) :
    List Application → Except Error (List Term)
  | [] => .ok []
  | a :: rest => do
    let i ← s.get a.relation
    let tag := toString index ++ "_" ++ toString position
    return i.apply a.args tag :: (← bodyFormulas s index (position + 1) rest)

/-- The formula that has to be valid for a stated clause, unless it is passed over. -/
def clauseFormula? (s : Solution) (index : Nat) (c : Clause) : Except Error (Option Term) := do
  let body ← s.bodyFormulas index 0 c.body
  let premise := Term.conjoin (c.condition :: body)
  match c.head with
  | none => return some (.implication premise (.bool false))
  | some a =>
    let i ← s.get a.relation
    if i.existentials.isEmpty then return some (.implication premise (i.apply a.args "h"))
    else return none

/-- Checks a solution against a problem as it was stated. -/
def check (p : Problem) (s : Solution) (o : Oracle) : Except Error Bool × Oracle :=
  checkAll (fun (c, index) => s.clauseFormula? index c) p.clauses.zipIdx o

/-- The interpretations of the uses in the body of a normalized clause, from a position on. -/
def bodyUseFormulas (s : Solution) (relations : List Relation) (position : Nat) :
    List Atom → Except Error (List Term)
  | [] => .ok []
  | a :: rest => do
    let args ← a.arguments relations
    let i ← s.get a.relation
    return i.apply (args.map .var) ("b" ++ toString position)
      :: (← bodyUseFormulas s relations (position + 1) rest)

/-- The interpretation of a normalized head, unless it has existential variables. -/
def headFormula? (s : Solution) (relations : List Relation) :
    Option Atom → Except Error (Option Term)
  | none => .ok (some (.bool false))
  | some a => do
    let i ← s.get a.relation
    if i.existentials.isEmpty then
      let args ← a.arguments relations
      return some (i.apply (args.map .var) "h")
    else return none

/-- The formula that has to be valid for a normalized clause, unless it is passed over. -/
def normalizedFormula? (s : Solution) (relations : List Relation) (c : NormalizedClause) :
    Except Error (Option Term) := do
  match ← s.headFormula? relations c.head with
  | none => return none
  | some head =>
    let body ← s.bodyUseFormulas relations 0 c.body
    return some (.implication (.conjoin (c.constraint :: body)) head)

/-- Checks a solution against a problem in normalized form. -/
def checkNormalized (p : NormalizedProblem) (s : Solution) (o : Oracle) :
    Except Error Bool × Oracle :=
  checkAll (s.normalizedFormula? p.relations) p.clauses o

end Solution

end HornSaturation
