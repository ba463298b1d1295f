import HornSaturation.Clause.Basic
import HornSaturation.Diagnostics

/-!
# Problems

A problem declares relations and states clauses about them. Validation makes sure that every applied
relation is declared and has the declared number of arguments, and that constraints are formulas; it
reports the first clause at fault.
-/

namespace HornSaturation

/-- A set of constrained Horn clauses over declared relations. -/
structure Problem where
  /-- The declared relations; a relation's identifier is its position here. -/
  relations : List Relation := []
  /-- The clauses, in the order in which they were stated. -/
  clauses : List Clause := []
  deriving DecidableEq

namespace Problem

/-- The problem with one more relation. -/
def declare (p : Problem) (name : String) (sorts : List BaseSort) : Problem :=
  { p with relations := p.relations ++ [⟨p.relations.length, name, sorts⟩] }

/-- The problem with one more clause. -/
def addClause (p : Problem) (c : Clause) : Problem := { p with clauses := p.clauses ++ [c] }

/-- The relation of a name; of several the one declared last. -/
def named? (p : Problem) (name : String) : Option Relation :=
  p.relations.reverse.find? (·.name = name)

/-- Accepts an application of a declared relation to the declared number of arguments. -/
def checkApplication (p : Problem) (a : Application) : Except Error Unit :=
  match p.relations[a.relation]? with
  | none => .error (.undefinedRelation a.relation)
  | some r =>
    if a.args.length = r.arity then .ok ()
    else .error (.arityMismatch r.name r.arity a.args.length)

/-- Accepts a clause whose applications are well formed, body before head, and whose constraint is a
formula. -/
def checkClause (p : Problem) (c : Clause) : Except Error Unit := do
  c.body.forM p.checkApplication
  c.head.toList.forM p.checkApplication
  match c.constraint with
  | some t => if t.sort = .bool then .ok () else .error (.input (.nonBooleanConstraint t))
  | none => .ok ()

/-- Accepts a problem all of whose clauses are well formed. -/
def validate (p : Problem) : Except Error Unit := p.clauses.forM p.checkClause

/-- The indexes of the clauses that a test selects. -/
def indexesWhere (p : Problem) (test : Clause → Bool) : List Nat :=
  (List.range p.clauses.length).filter fun i => (p.clauses[i]?).any test

/-- The clauses without relation application in the body, and with a head. -/
def facts (p : Problem) : List Nat := p.indexesWhere fun c => c.isFact && !c.isQuery

/-- The clauses that conclude `false`. -/
def queries (p : Problem) : List Nat := p.indexesWhere Clause.isQuery

/-- The clauses with relation applications in the body and a head. -/
def transitions (p : Problem) : List Nat := p.indexesWhere fun c => !c.isFact && !c.isQuery

end Problem

end HornSaturation
