import HornSaturation.Term.Arithmetic
import HornSaturation.Term.Connectives
import HornSaturation.Term.Equality

/-!
# Constant folding

Folding replaces constant subterms by their values and applies local identities of the connectives,
the comparisons and the arithmetic operators. Operations whose result leaves the 64-bit range and
divisions by zero stay as they are.

Folding works from the leaves up. One rule, which reads an implication with conclusion `false` as a
negation, folds the negation that it has built once more; since folding never makes a term larger,
the number of nodes of a term bounds how deep these second rounds can nest.
-/

namespace HornSaturation.Term

/-- The conjuncts kept so far, with those of one more folded formula. -/
def addConjunct (kept : List Term) : Term → List Term
  | .bool true => kept
  | .op .and args => kept ++ args
  | t => if kept.contains t then kept else kept ++ [t]

/-- Folds a conjunction of folded formulas. A conjunct together with its negation gives `false`. -/
def foldAnd (args : List Term) : Term :=
  if args.any isFalse then .bool false
  else
    let kept := args.foldl addConjunct []
    if kept.any fun t => kept.contains t.negate then .bool false else conjoin kept

/-- The disjuncts kept so far, with one more folded formula. -/
def addDisjunct (kept : List Term) : Term → List Term
  | .bool false => kept
  | t => if kept.contains t then kept else kept ++ [t]

/-- Folds a disjunction of folded formulas. -/
def foldOr (args : List Term) : Term :=
  if args.any isTrue then .bool true else disjoin (args.foldl addDisjunct [])

/-- Whether two folded terms are equal, where that is plain: between constants of one kind, and
between identical terms. -/
def plainEquality? : Term → Term → Option Bool
  | .int a, .int b => some (a == b)
  | .bool a, .bool b => some (a == b)
  | a, b => if a = b then some true else none

/-- Folds an equation. -/
def foldEquality (o : Op) : List Term → Term
  | [a, b] =>
    match plainEquality? a b with
    | some e => .bool (if o = .ne then !e else e)
    | none => .op o [a, b]
  | args => .op o args

/-- Folds a comparison. -/
def foldComparison (o : Op) : List Term → Term
  | [.int a, .int b] => .bool (o.compareInts a b)
  | [a, b] => if a = b then .bool (o = .le ∨ o = .ge) else .op o [a, b]
  | args => .op o args

/-- The integer constants of a list of terms, if all are. -/
def constants? : List Term → Option (List Int)
  | [] => some []
  | .int n :: ts => (constants? ts).map (n :: ·)
  | _ :: _ => none

/-- Splits the constants off the arguments of a sum and adds them up. A constant that would take the
sum out of range stays among the other arguments. -/
def splitSum (c : Int) : List Term → Int × List Term
  | [] => (c, [])
  | .int n :: ts =>
    match narrow (c + n) with
    | some c' => splitSum c' ts
    | none => let (d, rest) := splitSum c ts; (d, .int n :: rest)
  | t :: ts => let (d, rest) := splitSum c ts; (d, t :: rest)

/-- Folds a sum: its constants are gathered in one last argument. -/
def foldSum (args : List Term) : Term :=
  let (c, rest) := splitSum 0 args
  match if c = 0 then rest else rest ++ [.int c] with
  | [] => .int 0
  | [t] => t
  | ts => .op .add ts

/-- Folds a product of two terms by zero and by one. -/
def foldProduct : List Term → Term
  | [a, b] =>
    if a = .int 0 ∨ b = .int 0 then .int 0
    else if a = .int 1 then b
    else if b = .int 1 then a
    else .op .mul [a, b]
  | args => .op .mul args

/-- Applies the identities of an arithmetic operator. -/
def foldIdentities : Op → List Term → Term
  | .add, args => foldSum args
  | .mul, args => foldProduct args
  | .sub, [a, b] => if b = .int 0 then a else .op .sub [a, b]
  | o, args => .op o args

/-- Folds an arithmetic operation: to a constant if its arguments are constants and it is defined.
-/
def foldArithmetic (o : Op) (args : List Term) : Term :=
  match (constants? args).bind (checkedArithmetic o) with
  | some n => .int n
  | none => foldIdentities o args

/-- Folds an operator applied to folded arguments; `again` folds a term that a rule has built anew.
-/
def foldOp (again : Term → Term) : Op → List Term → Term
  | .and, args => foldAnd args
  | .or, args => foldOr args
  | .not, [.bool b] => .bool !b
  | .not, [t] => t.negate
  | .implies, [a, b] =>
    if a.isFalse || b.isTrue then .bool true
    else if a.isTrue then b
    else if b.isFalse then again a.negate
    else .op .implies [a, b]
  | .ite, [c, t, e] =>
    if c.isTrue then t
    else if c.isFalse then e
    else if t = e then t
    else .op .ite [c, t, e]
  | .eq, args => foldEquality .eq args
  | .iff, args => foldEquality .iff args
  | .ne, args => foldEquality .ne args
  | .lt, args => foldComparison .lt args
  | .le, args => foldComparison .le args
  | .gt, args => foldComparison .gt args
  | .ge, args => foldComparison .ge args
  | .add, args => foldArithmetic .add args
  | .sub, args => foldArithmetic .sub args
  | .mul, args => foldArithmetic .mul args
  | .div, args => foldArithmetic .div args
  | .mod, args => foldArithmetic .mod args
  | .neg, args => foldArithmetic .neg args
  | o, args => .op o args

mutual
/-- Folds a term from its leaves up. -/
def foldWith (again : Term → Term) : Term → Term
  | .bool b => .bool b
  | .int n => .int n
  | .var v => .var v
  | .op o args => foldOp again o (foldListWith again args)
  | .app name r args => .app name r (foldListWith again args)
/-- Folds the terms of a list. -/
def foldListWith (again : Term → Term) : List Term → List Term
  | [] => []
  | t :: ts => foldWith again t :: foldListWith again ts
end

/-- Folds a term, with second rounds nested no deeper than the given depth. -/
def foldToDepth : Nat → Term → Term
  | 0 => id
  | n + 1 => foldWith (foldToDepth n)

/-- Folds the constants of a term. -/
def foldConstants (t : Term) : Term := foldToDepth t.size t

end HornSaturation.Term
