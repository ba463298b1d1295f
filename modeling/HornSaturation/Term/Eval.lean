import HornSaturation.Term.Arithmetic

/-!
# Evaluation

A term has a value under a partial assignment of values to variables, or is undefined: on a variable
without value, a value of the wrong kind, a missing argument, an undefined arithmetic operation or a
relation application. The connectives decide from left to right and look no further than they need,
so an undefined argument does no harm behind one that settles the result.
-/

namespace HornSaturation

/-- A partial assignment of values to names. -/
abbrev Assignment := String → Option Value

namespace Term

mutual
/-- The value of a term, with the arithmetic operators read by `arith`. -/
def evalWith (arith : Op → List Int → Option Int) (env : Var → Option Value) : Term → Option Value
  | .bool b => some (.bool b)
  | .int n => some (.int n)
  | .var v => env v
  | .app .. => none
  | .op .and args => (evalAll arith env args).map .bool
  | .op .or args => (evalAny arith env args).map .bool
  | .op .not args => do
      let a ← (← evalArg arith env 0 args).toBool?
      return .bool !a
  | .op .implies args => do
      let a ← (← evalArg arith env 0 args).toBool?
      if a then evalArg arith env 1 args else return .bool true
  | .op .ite args => do
      let c ← (← evalArg arith env 0 args).toBool?
      if c then evalArg arith env 1 args else evalArg arith env 2 args
  | .op .eq args | .op .iff args => do
      let a ← evalArg arith env 0 args
      let b ← evalArg arith env 1 args
      return .bool (a == b)
  | .op .ne args => do
      let a ← evalArg arith env 0 args
      let b ← evalArg arith env 1 args
      return .bool (a != b)
  | .op .lt args => evalComparison arith env .lt args
  | .op .le args => evalComparison arith env .le args
  | .op .gt args => evalComparison arith env .gt args
  | .op .ge args => evalComparison arith env .ge args
  | .op o args => do
      let ns ← evalInts arith env args
      return .int (← arith o ns)
/-- The value of the argument at a position. -/
def evalArg (arith : Op → List Int → Option Int) (env : Var → Option Value) :
    Nat → List Term → Option Value
  | _, [] => none
  | 0, t :: _ => evalWith arith env t
  | k + 1, _ :: ts => evalArg arith env k ts
/-- Whether all formulas of a list are true; the first false one settles it. -/
def evalAll (arith : Op → List Int → Option Int) (env : Var → Option Value) :
    List Term → Option Bool
  | [] => some true
  | t :: ts => do
      let a ← (← evalWith arith env t).toBool?
      if a then evalAll arith env ts else return false
/-- Whether some formula of a list is true; the first true one settles it. -/
def evalAny (arith : Op → List Int → Option Int) (env : Var → Option Value) :
    List Term → Option Bool
  | [] => some false
  | t :: ts => do
      let a ← (← evalWith arith env t).toBool?
      if a then return true else evalAny arith env ts
/-- The integers that the terms of a list denote. -/
def evalInts (arith : Op → List Int → Option Int) (env : Var → Option Value) :
    List Term → Option (List Int)
  | [] => some []
  | t :: ts => do
      let n ← (← evalWith arith env t).toInt?
      return n :: (← evalInts arith env ts)
/-- The comparison of the first two arguments. -/
def evalComparison (arith : Op → List Int → Option Int) (env : Var → Option Value) (o : Op) :
    List Term → Option Value
  | a :: b :: _ => do
      let m ← (← evalWith arith env a).toInt?
      let n ← (← evalWith arith env b).toInt?
      return .bool (o.compareInts m n)
  | _ => none
end

/-- The value of a term in 64-bit arithmetic, where variables of one name share its value. -/
def eval (env : Assignment) (t : Term) : Option Value :=
  evalWith checkedArithmetic (fun v => env v.name) t

end Term

end HornSaturation
