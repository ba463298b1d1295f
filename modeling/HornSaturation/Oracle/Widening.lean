import HornSaturation.Oracle.Window
import HornSaturation.Term.Arithmetic

/-!
# Widening a window

A refutation that holds in a window is confirmed in a wider one. The wider window has a margin of at
least the width on both sides and reaches past the constants of the formula; if it cannot be
searched, the margin is halved until it can.
-/

namespace HornSaturation

namespace Term

mutual
/-- The greatest magnitude of an integer constant in a term. -/
def maxConstant : Term → Nat
  | .int n => n.natAbs
  | .bool _ | .var _ => 0
  | .op _ args | .app _ _ args => maxConstantList args
/-- The greatest magnitude of an integer constant in the terms of a list. -/
def maxConstantList : List Term → Nat
  | [] => 0
  | t :: ts => max (maxConstant t) (maxConstantList ts)
end

end Term

/-- The first of a margin, its half, its quarter and so on that passes a test. -/
def firstHalving? (passes : Nat → Bool) (margin : Nat) : Option Nat :=
  if margin = 0 then none
  else if passes margin then some margin
  else firstHalving? passes (margin / 2)
termination_by margin

namespace Window

/-- The window with a margin on both sides, as far as the 64-bit range goes. -/
def widen (w : Window) (margin : Nat) : Window where
  lo := max (w.lo - min (margin : Int) int64Max) int64Min
  hi := min (w.hi + min (margin : Int) int64Max) int64Max

/-- The margin at which confirming a refutation starts: the width of the window, or more if the
constants of the formula lie beyond that. -/
def margin (w : Window) (formula : Term) : Nat :=
  max (min w.width int64Max.toNat) (formula.maxConstant - w.farthest + 1)

/-- The window for confirming a refutation, if even one more integer on each side can be searched.
-/
def widened? (w : Window) (cap : Nat) (formula : Term) (vars : List Var) : Option Window :=
  (firstHalving? (fun m => (w.widen m).assignments vars ≤ cap) (w.margin formula)).map w.widen

end Window

end HornSaturation
