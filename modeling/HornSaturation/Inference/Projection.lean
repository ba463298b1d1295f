import HornSaturation.Term.Folding
import HornSaturation.Term.Variables
import HornSaturation.Vocabulary.Symbols

/-!
# Projection

Symbols that only matter through their existence are eliminated from a formula where the formula
defines them: a conjunct that equates a symbol with a term without it is dropped, and the term takes
the place of the symbol everywhere else. Symbols without such a definition stay in the formula.
-/

namespace HornSaturation

/-- A way to simplify a formula in which some symbols may be eliminated; the flag asks for the
formula's constants to be folded first. -/
abbrev Simplifier := Symbols → Term → List Var → Bool → Term

namespace Term

/-- The term that a conjunct equates a symbol with, if the symbol does not occur in it. A symbol
that stands alone is equated with `true`, and a negated one with `false`. -/
def definition? (v : Var) : Term → Option Term
  | .var w => if w = v then some (.bool true) else none
  | .op .not [.var w] => if w = v then some (.bool false) else none
  | .op .eq [a, b] | .op .iff [a, b] =>
    if a = .var v ∧ !b.containsVar v then some b
    else if b = .var v ∧ !a.containsVar v then some a
    else none
  | _ => none

/-- The first definition of a symbol among conjuncts, with the other conjuncts. -/
def takeDefinition? (v : Var) : List Term → Option (Term × List Term)
  | [] => none
  | c :: cs =>
    match definition? v c with
    | some t => some (t, cs)
    | none => (takeDefinition? v cs).map fun (t, rest) => (t, c :: rest)

/-- Eliminates the symbols of a list that the conjuncts define, one after the other, and gives the
symbols that are left. There is no result if a conjunct becomes false. -/
def eliminateEach (conjuncts : List Term) : List Var → Option (List Term × List Var)
  | [] => some (conjuncts, [])
  | v :: vs =>
    match takeDefinition? v conjuncts with
    | some (t, rest) =>
      let rest := rest.map fun c => (c.substitute [(v, t)]).foldConstants
      if rest.any isFalse then none else eliminateEach rest vs
    | none => (eliminateEach conjuncts vs).map fun (cs, left) => (cs, v :: left)

/-- Eliminates symbols in rounds until one changes nothing, in at most the given number of rounds.
-/
def eliminateWithin : Nat → List Term → List Var → Option (List Term)
  | 0, conjuncts, _ => some conjuncts
  | n + 1, conjuncts, vs =>
    match eliminateEach conjuncts vs with
    | none => none
    | some (cs, left) =>
      if left.length < vs.length then eliminateWithin n cs left else some cs

/-- Folds conjuncts and joins them. -/
def foldConjuncts (conjuncts : List Term) : Term :=
  let folded := conjuncts.map foldConstants
  if folded.any isFalse then .bool false
  else (conjoin (conjunctsList folded)).foldConstants

/-- Eliminates symbols through their definitions, in canonical order. Each round that changes
something eliminates a symbol, so there are no more rounds than symbols. -/
def project : Simplifier := fun symbols formula eliminate foldFirst =>
  let formula := if foldFirst then formula.foldConstants else formula
  let pending := symbols.sort eliminate
  match eliminateWithin pending.length formula.conjuncts pending with
  | none => .bool false
  | some conjuncts => foldConjuncts conjuncts

/-- Leaves a formula as it is. -/
def keep : Simplifier := fun _ formula _ _ => formula

end Term

end HornSaturation
