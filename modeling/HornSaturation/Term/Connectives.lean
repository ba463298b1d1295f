import HornSaturation.Term.Basic

/-!
# Building formulas

Negation removes a double negation, conjunction and disjunction of lists flatten what they are
given, so that a conjunction of one formula is that formula. The conjuncts of a formula are its
parts under nested conjunctions, with `true` left out.
-/

namespace HornSaturation.Term

/-- The negation of a formula; a formula that is itself a negation loses it instead. -/
def negate : Term → Term
  | .op .not [t] => t
  | t => .op .not [t]

/-- The equation between two terms. -/
def equation (a b : Term) : Term := .op .eq [a, b]

/-- The implication from the first formula to the second. -/
def implication (a b : Term) : Term := .op .implies [a, b]

mutual
/-- The top-level conjuncts of a formula, through nested conjunctions and without `true`. -/
def conjuncts : Term → List Term
  | .op .and args => conjunctsList args
  | .bool true => []
  | t => [t]
/-- The conjuncts of the formulas of a list, in order. -/
def conjunctsList : List Term → List Term
  | [] => []
  | t :: ts => conjuncts t ++ conjunctsList ts
end

/-- The conjunction of a list of formulas, flattened: no conjunct is `true` or a conjunction. -/
def conjoin (ts : List Term) : Term :=
  match conjunctsList ts with
  | [] => .bool true
  | [t] => t
  | flat => .op .and flat

/-- The disjuncts that a formula contributes to a disjunction: none for `false`, the arguments of a
disjunction, and otherwise the formula itself. -/
def disjuncts : Term → List Term
  | .bool false => []
  | .op .or args => args
  | t => [t]

/-- The disjunction of a list of formulas, flattened by one level. -/
def disjoin (ts : List Term) : Term :=
  match ts.flatMap disjuncts with
  | [] => .bool false
  | [t] => t
  | flat => .op .or flat

end HornSaturation.Term
