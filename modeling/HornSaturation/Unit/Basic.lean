import HornSaturation.Clause.Normalized
import HornSaturation.Term.Variables

/-!
# Unit clauses

A unit clause says that its constraint is enough for a relation to hold of its arguments. Besides
the argument symbols of its occurrence the constraint may have locals, which are read existentially,
so their names do not matter. A unit without a relation, or with negative polarity, stands for a
contradiction.
-/

namespace HornSaturation

/-- Whether a unit clause asserts its head or denies it. -/
inductive Polarity where
  | positive
  | negative
  deriving DecidableEq

/-- A unit clause. -/
structure UnitClause where
  /-- The relation of the head; none stands for `false`. -/
  head : Option RelationId
  polarity : Polarity
  /-- The occurrence whose argument symbols the constraint speaks about. -/
  occurrence : Nat
  constraint : Term
  deriving DecidableEq

namespace UnitClause

/-- The unit that a normalized clause without body states. Without head it denies its constraint. -/
def ofNormalized (c : NormalizedClause) : Except Error UnitClause :=
  if c.body.isEmpty then
    match c.head with
    | some a => .ok ⟨some a.relation, .positive, a.occurrence, c.constraint⟩
    | none => .ok ⟨none, .negative, 0, c.constraint⟩
  else .error (.notUnitClause c.index c.body.length)

/-- Whether the unit stands for a contradiction. -/
def isRefutation (u : UnitClause) : Bool := u.head.isNone || u.polarity = .negative

/-- The argument symbols of the unit. -/
def arguments (relations : List Relation) (u : UnitClause) : Except Error (List Var) :=
  match u.head with
  | some r => (Atom.mk r u.occurrence).arguments relations
  | none => .ok []

/-- The variables of the constraint that are no argument symbols of the unit. -/
def locals (relations : List Relation) (u : UnitClause) : Except Error (List Var) := do
  let args ← u.arguments relations
  return u.constraint.vars.filter fun v => !args.contains v

/-- The renaming that moves the argument symbols to another occurrence. -/
def moveArguments (relations : List Relation) (u : UnitClause) (occurrence : Nat) :
    Except Error Substitution :=
  match u.head with
  | none => .ok []
  | some r =>
    if occurrence = u.occurrence then .ok []
    else do
      let source ← (Atom.mk r u.occurrence).arguments relations
      let target ← (Atom.mk r occurrence).arguments relations
      return .ofVars source target

/-- The unit with its arguments at another occurrence; its locals keep their names. -/
def atOccurrence (relations : List Relation) (u : UnitClause) (occurrence : Nat) :
    Except Error UnitClause := do
  let move ← u.moveArguments relations occurrence
  return { u with occurrence, constraint := u.constraint.substitute move }

/-- The name of a local in canonical form. -/
def canonicalLocal (i : Nat) (v : Var) : Var := ⟨"!c" ++ toString i, v.sort⟩

/-- The canonical form: arguments at occurrence zero, and locals numbered by first appearance. -/
def canonical (relations : List Relation) (u : UnitClause) : Except Error UnitClause := do
  let u ← u.atOccurrence relations 0
  let locals ← u.locals relations
  let rename := Substitution.ofVars locals (locals.mapIdx canonicalLocal)
  return { u with constraint := u.constraint.substitute rename }

/-- The text of a unit: its head with a sign for negative polarity, and its constraint. -/
def render (relations : List Relation) (u : UnitClause) : String :=
  let head := match u.head with
    | none => "false"
    | some r =>
      match relations[r]? with
      | some relation =>
        relation.name ++ "("
          ++ ", ".intercalate ((relation.arguments u.occurrence).map (·.name)) ++ ")"
      | none => RelationId.render r
  let sign := match u.polarity with
    | .positive => ""
    | .negative => "~"
  sign ++ head ++ " :- " ++ u.constraint.render

end UnitClause

end HornSaturation
