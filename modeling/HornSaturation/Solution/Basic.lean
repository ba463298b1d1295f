import HornSaturation.Inference.Projection
import HornSaturation.Term.Eval
import HornSaturation.Text.Json
import HornSaturation.Unit.Store

/-!
# Solutions

A solution interprets every relation by a formula over positional variables, in which some further
variables are read existentially. The solution of a store gives each relation the disjunction of its
active units.
-/

namespace HornSaturation

/-- The meaning of a relation. -/
structure Interpretation where
  /-- The variables that stand for the arguments. -/
  vars : List Var
  /-- The variables that are read existentially. -/
  existentials : List Var
  formula : Term
  deriving DecidableEq

namespace Interpretation

/-- Whether the relation holds of values. This is open for a wrong number of values, where there are
existential variables, and where the formula has no truth value. -/
def eval (i : Interpretation) (args : List Value) : Option Bool :=
  if !i.existentials.isEmpty || args.length ≠ i.vars.length then none
  else
    let entries := ((i.vars.map (·.name)).zip args).reverse
    (i.formula.eval fun name => entries.lookup name).bind Value.toBool?

/-- The formula for given arguments, with its existential variables marked by a tag. -/
def apply (i : Interpretation) (args : List Term) (tag : String) : Term :=
  let marked := i.existentials.map fun v => (⟨v.name ++ "!" ++ tag, v.sort⟩ : Var)
  i.formula.substitute (i.vars.zip args ++ .ofVars i.existentials marked)

/-- The parameter list of variables in SMT-LIB. -/
def renderParameters (vs : List Var) : String :=
  " ".intercalate (vs.map fun v => "(" ++ v.name ++ " " ++ v.sort.render ++ ")")

/-- The SMT-LIB definition of a relation. -/
def render (name : String) (i : Interpretation) : String :=
  let body := if i.existentials.isEmpty then i.formula.render
    else "(exists (" ++ renderParameters i.existentials ++ ") " ++ i.formula.render ++ ")"
  "(define-fun " ++ name ++ " (" ++ renderParameters i.vars ++ ") Bool\n  " ++ body ++ ")\n\n"

/-- The JSON form of an interpretation. -/
def toJson (i : Interpretation) : JsonValue :=
  .ofFields [
    ("vars", .array (i.vars.map fun v => .string v.name)),
    ("existentials", .array (i.existentials.map fun v => .string v.name)),
    ("formula", .string i.formula.render)]

end Interpretation

/-- Interpretations of relations, in the order of their identifiers. -/
structure Solution where
  interpretations : List (RelationId × Interpretation) := []
  deriving DecidableEq

namespace Solution

/-- The interpretation of a relation. -/
def get? (s : Solution) (r : RelationId) : Option Interpretation := s.interpretations.lookup r

/-- The interpretation of a relation, which has to exist. -/
def get (s : Solution) (r : RelationId) : Except Error Interpretation :=
  match s.get? r with
  | some i => .ok i
  | none => .error (.undefinedRelation r)

/-- Puts an interpretation into its place, in place of an earlier one of the same relation. -/
def insertSorted (r : RelationId) (i : Interpretation) :
    List (RelationId × Interpretation) → List (RelationId × Interpretation)
  | [] => [(r, i)]
  | (s, j) :: rest =>
    if r < s then (r, i) :: (s, j) :: rest
    else if r = s then (r, i) :: rest
    else (s, j) :: insertSorted r i rest

/-- The solution with the interpretation of a relation. -/
def insert (s : Solution) (r : RelationId) (i : Interpretation) : Solution :=
  ⟨insertSorted r i s.interpretations⟩

/-- The SMT-LIB text of a solution. -/
def render (relations : List Relation) (s : Solution) : String :=
  "; CHC solution (hyperresolution)\n\n" ++
    String.join (s.interpretations.map fun (r, i) =>
      i.render (((relations[r]?).map (·.name)).getD "unknown"))

/-- The JSON form of a solution: interpretations by the names of the relations. -/
def toJson (relations : List Relation) (s : Solution) : JsonValue :=
  .ofFields (s.interpretations.filterMap fun (r, i) =>
    (relations[r]?).map fun relation => (relation.name, i.toJson))

/-- The formula of the active units of a relation, over its argument symbols at occurrence zero. -/
def disjunction (store : Store) (relations : List Relation) (r : Relation) : Except Error Term := do
  let units ← (store.unitsOf r.id).mapM fun (_, u) => u.atOccurrence relations 0
  return .disjoin (units.map (·.constraint))

/-- The variable that stands for an argument. -/
def positional (i : Nat) (sort : BaseSort) : Var := ⟨"x" ++ toString i, sort⟩

/-- The variable that stands for a local. -/
def existential (k : Nat) (v : Var) : Var := ⟨"e" ++ toString k, v.sort⟩

/-- The interpretation that the active units of a relation amount to. -/
def interpret (simplifier : Simplifier) (symbols : Symbols) (store : Store)
    (relations : List Relation) (r : Relation) : Except Error Interpretation := do
  let formula := simplifier symbols (← disjunction store relations r) [] true
  let args := r.arguments 0
  let locals := symbols.sort (formula.vars.filter fun v => !args.contains v)
  let vars := r.sorts.mapIdx positional
  let existentials := locals.mapIdx existential
  return ⟨vars, existentials,
    formula.substitute (Substitution.ofVars args vars ++ .ofVars locals existentials)⟩

/-- The solution that a store amounts to. -/
def ofStore (simplifier : Simplifier) (symbols : Symbols) (store : Store)
    (relations : List Relation) : Except Error Solution :=
  relations.foldlM (fun s r => do
    let i ← interpret simplifier symbols store relations r
    return s.insert r.id i) {}

end Solution

end HornSaturation
