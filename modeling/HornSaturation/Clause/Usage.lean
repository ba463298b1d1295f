import HornSaturation.Clause.Normalized
import HornSaturation.Vocabulary.Theory

/-!
# What a normalized problem uses

The theories that its clauses draw on, and how many occurrences of each relation it needs.
-/

namespace HornSaturation

namespace Term

/-- Whether an operator is one of integer arithmetic. -/
def isArithmetic : Op → Bool
  | .add | .sub | .mul | .div | .mod | .neg => true
  | _ => false

mutual
/-- Whether a term has an integer constant, an integer variable or an arithmetic operator. -/
def usesInts : Term → Bool
  | .int _ => true
  | .bool _ => false
  | .var v => v.sort = .int
  | .op o args => isArithmetic o || usesIntsList args
  | .app _ _ args => usesIntsList args
/-- Whether a term of a list uses integers. -/
def usesIntsList : List Term → Bool
  | [] => false
  | t :: ts => usesInts t || usesIntsList ts
end

end Term

/-- Whether a clause is about integers, through its constraint or a relation it uses. -/
def NormalizedClause.usesInts (relations : List Relation) (c : NormalizedClause) : Bool :=
  c.constraint.usesInts ||
    (c.relations.filterMap (relations[·]?)).any fun r => r.sorts.contains .int

/-- The theories that a clause draws on. -/
def NormalizedClause.theories (relations : List Relation) (c : NormalizedClause) : List Theory :=
  .core :: if c.usesInts relations then [.ints] else []

namespace NormalizedProblem

/-- The theories that the clauses draw on. -/
def theories (p : NormalizedProblem) : List Theory :=
  [Theory.core, .ints].filter fun t => p.clauses.any fun c => (c.theories p.relations).contains t

/-- The highest occurrence that a clause needs of a relation. A use in a body may be read one
occurrence later, so it counts one more. -/
def maxOccurrence (p : NormalizedProblem) (r : RelationId) : Nat :=
  let inBodies := p.clauses.flatMap fun c =>
    (c.body.filter (·.relation = r)).map (·.occurrence + 1)
  let inHeads := (p.clauses.filterMap (·.head)).filter (·.relation = r) |>.map (·.occurrence)
  (inBodies ++ inHeads).foldl max 0

/-- The highest occurrences of all declared relations. -/
def maxOccurrences (p : NormalizedProblem) : List (RelationId × Nat) :=
  p.relations.map fun r => (r.id, p.maxOccurrence r.id)

end NormalizedProblem

end HornSaturation
