import HornSaturation.Term.Basic
import HornSaturation.Text.Decimal

/-!
# Relations and their argument instances

A relation is an uninterpreted predicate with sorted arguments. Every use of a relation in a clause
has its own symbols for the arguments: the instance of an argument is named after the relation, the
occurrence and the position, so it is the same symbol wherever it is built.
-/

namespace HornSaturation

/-- The display form of a relation identifier. -/
def RelationId.render (id : RelationId) : String := "R" ++ toString id

/-- A declared relation. -/
structure Relation where
  /-- The identifier by which clauses refer to the relation. -/
  id : RelationId
  /-- The name in the input. -/
  name : String
  /-- The sorts of the arguments. -/
  sorts : List BaseSort
  deriving DecidableEq

namespace Relation

/-- The number of arguments. -/
def arity (r : Relation) : Nat := r.sorts.length

/-- The symbol of the argument at a position in an occurrence of the relation. A position beyond the
arity is read as an integer argument. -/
def argument (r : Relation) (occurrence position : Nat) : Var where
  name := r.name ++ "@" ++ toString occurrence ++ "_" ++ toString position
  sort := r.sorts.getD position .int

/-- The symbols of all arguments in an occurrence, in order. -/
def arguments (r : Relation) (occurrence : Nat) : List Var :=
  (List.range r.arity).map (r.argument occurrence)

/-- The occurrence and position of which a variable is the argument symbol, if it is one of this
relation. -/
def locate? (r : Relation) (v : Var) : Option (Nat × Nat) := do
  let rest ← r.name.toList.isPrefixOf? v.name.toList
  let rest ← ['@'].isPrefixOf? rest
  let occurrence := rest.takeWhile (· ≠ '_')
  let position ← ['_'].isPrefixOf? (rest.dropWhile (· ≠ '_'))
  let occurrence ← Text.index? occurrence
  let position ← Text.index? position
  if r.sorts[position]? = some v.sort then some (occurrence, position) else none

/-- The signature of a relation: its name and the sorts of its arguments. -/
def render (r : Relation) : String :=
  r.name ++ "(" ++ ", ".intercalate (r.sorts.map BaseSort.render) ++ ")"

end Relation

/-- The declared relation with an identifier. The identifier has to be the position in the list and
also the one the relation carries. -/
def relation? (relations : List Relation) (id : RelationId) : Option Relation :=
  relations[id]?.filter (·.id = id)

end HornSaturation
