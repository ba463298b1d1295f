import HornSaturation.Clause.Basic
import HornSaturation.Term.Connectives

/-!
# Clauses from formulas

A formula is read as a clause. The conjuncts of its premise are sorted into relation applications
and constraints, and a conclusion that is no application moves into the body as its negation.
-/

namespace HornSaturation

namespace Term

mutual
/-- The relation applications among the conjuncts of a formula. -/
def applications : Term → List Application
  | .op .and args => applicationsList args
  | .app _ r args => [⟨r, args⟩]
  | _ => []
/-- The relation applications among the conjuncts of the formulas of a list. -/
def applicationsList : List Term → List Application
  | [] => []
  | t :: ts => applications t ++ applicationsList ts
end

mutual
/-- The conjuncts of a formula that are no relation applications. -/
def constraints : Term → List Term
  | .op .and args => constraintsList args
  | .app .. => []
  | .bool true => []
  | t => [t]
/-- The conjuncts of the formulas of a list that are no relation applications. -/
def constraintsList : List Term → List Term
  | [] => []
  | t :: ts => constraints t ++ constraintsList ts
end

end Term

namespace Clause

/-- The constraint of a body, if it has one. -/
def constraintOf? (body : Term) : Option Term :=
  match body.constraints with
  | [] => none
  | cs => some (.conjoin cs)

/-- The clause that a body is contradictory. -/
def ofBody (body : Term) : Clause := ⟨body.applications, constraintOf? body, none⟩

/-- The clause that a body implies a head; none is needed for the head `true`. A head that is no
application is negated and joins the body. -/
def ofImplication? (body head : Term) : Option Clause :=
  match head with
  | .bool true => none
  | .bool false => some (ofBody body)
  | .app _ r args => some { ofBody body with head := some ⟨r, args⟩ }
  | other =>
    let negated := other.negate
    let constraint := match constraintOf? body with
      | some c => .op .and [c, negated]
      | none => negated
    some { ofBody body with constraint := some constraint }

/-- The clause that a formula states, if one is needed. -/
def ofFormula? : Term → Option Clause
  | .op .implies [body, head] => ofImplication? body head
  | .op .not [body] => some (ofBody body)
  | t => ofImplication? (.bool true) t

end Clause

end HornSaturation
