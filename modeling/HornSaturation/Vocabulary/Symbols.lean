import HornSaturation.Vocabulary.Relation

/-!
# Symbols

Fresh symbols are numbered, and no number is used twice. The canonical order of symbols puts the
argument symbols of the known relations first, by relation, occurrence and position, and then all
other symbols by name and sort.
-/

namespace HornSaturation

/-- The stock of symbols. -/
structure Symbols where
  /-- The relations whose argument symbols are known. -/
  relations : List Relation := []
  /-- The highest occurrence in use, by relation. -/
  maxOccurrences : List (RelationId × Nat) := []
  /-- Whether the relations have been made known. -/
  ready : Bool := false
  /-- The number of fresh symbols taken so far. -/
  allocated : Nat := 0

namespace Symbols

/-- Makes relations known. The count of fresh symbols goes on. -/
def prepare (s : Symbols) (relations : List Relation) (maxOccurrences : List (RelationId × Nat)) :
    Symbols :=
  { s with relations, maxOccurrences, ready := true }

/-- The highest occurrence in use of a relation. -/
def maxOccurrence (s : Symbols) (r : RelationId) : Nat := (s.maxOccurrences.lookup r).getD 0

/-- Takes a symbol that has not been taken before. -/
def fresh (s : Symbols) (stem : String) (sort : BaseSort) : Var × Symbols :=
  (⟨stem ++ "!" ++ toString s.allocated, sort⟩, { s with allocated := s.allocated + 1 })

/-- The part of a name before its last `@`. -/
def relationName? (name : String) : Option String :=
  match name.toList.reverse.dropWhile (· ≠ '@') with
  | [] => none
  | _ :: before => some (String.ofList before.reverse)

/-- The relation, occurrence and position of which a variable is the argument symbol. -/
def argumentOf? (s : Symbols) (v : Var) : Option (RelationId × Nat × Nat) := do
  let name ← relationName? v.name
  let named ← s.relations.reverse.find? (·.name = name)
  let relation ← s.relations[named.id]?
  let (occurrence, position) ← relation.locate? v
  return (named.id, occurrence, position)

/-- The canonical order. -/
def compare (s : Symbols) (a b : Var) : Ordering :=
  match s.argumentOf? a, s.argumentOf? b with
  | some (r, o, p), some (r', o', p') =>
    (Ord.compare r r').then ((Ord.compare o o').then (Ord.compare p p'))
  | some _, none => .lt
  | none, some _ => .gt
  | none, none => (Ord.compare a.name b.name).then (a.sort.compare b.sort)

/-- Sorts variables into the canonical order; equal ones keep their order. -/
def sort (s : Symbols) (vs : List Var) : List Var := vs.mergeSort fun a b => s.compare a b ≠ .gt

end Symbols

end HornSaturation
