import HornSaturation.Term.Basic

/-!
# Arithmetic of the operators

The arithmetic operators are defined once, for any rule that says which integers a result may take.
With the rule that admits every integer this is the arithmetic of the integers, where only division
by zero is undefined; with the rule that admits the signed 64-bit range every intermediate result
has to stay in that range. Division is Euclidean: the remainder is never negative.
-/

namespace HornSaturation

/-- The least signed 64-bit integer. -/
def int64Min : Int := -9223372036854775808

/-- The greatest signed 64-bit integer. -/
def int64Max : Int := 9223372036854775807

/-- The integer itself, if it lies in the signed 64-bit range. -/
def narrow (n : Int) : Option Int := if int64Min ≤ n ∧ n ≤ int64Max then some n else none

/-- The value of an arithmetic operator, where `keep` admits each intermediate result or refuses it.
Sums and products run from left to right. A remainder is defined when the quotient is. -/
def arithmetic (keep : Int → Option Int) : Op → List Int → Option Int
  | .neg, [a] => keep (-a)
  | .add, ns => ns.foldlM (fun acc n => keep (acc + n)) 0
  | .mul, ns => ns.foldlM (fun acc n => keep (acc * n)) 1
  | .sub, [a] => keep (-a)
  | .sub, a :: ns => ns.foldlM (fun acc n => keep (acc - n)) a
  | .div, [a, b] => if b = 0 then none else keep (a / b)
  | .mod, [a, b] => if b = 0 then none else (keep (a / b)).map fun _ => a % b
  | _, _ => none

/-- Arithmetic in the signed 64-bit range: undefined where a result would leave it. -/
def checkedArithmetic : Op → List Int → Option Int := arithmetic narrow

/-- The order that a comparison operator tests. Every operator other than the three others tests
"at least". -/
def Op.compareInts : Op → Int → Int → Bool
  | .lt, a, b => a < b
  | .le, a, b => a ≤ b
  | .gt, a, b => b < a
  | _, a, b => b ≤ a

end HornSaturation
