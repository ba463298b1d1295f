import HornSaturation.Term.Basic

/-!
# Windows

A window is an interval of integers, in which the values of variables are searched.
-/

namespace HornSaturation

/-- An interval of integers, ends included. -/
structure Window where
  lo : Int
  hi : Int
  deriving DecidableEq

namespace Window

/-- The number of integers in the window. -/
def width (w : Window) : Nat := (w.hi - w.lo + 1).toNat

/-- Whether an integer lies in the window. -/
def contains (w : Window) (n : Int) : Bool := w.lo ≤ n && n ≤ w.hi

/-- The least magnitude of an integer in the window. -/
def nearest (w : Window) : Nat := if w.contains 0 then 0 else min w.lo.natAbs w.hi.natAbs

/-- The greatest magnitude of an integer in the window. -/
def farthest (w : Window) : Nat := max w.lo.natAbs w.hi.natAbs

/-- The integers of the window, nearest to zero first; of two equally near the positive one. -/
def integers (w : Window) : List Int :=
  (List.range' w.nearest (w.farthest + 1 - w.nearest)).flatMap fun (k : Nat) =>
    (if k = 0 then [0] else [(k : Int), -(k : Int)]).filter w.contains

/-- The number of assignments of values from the window to variables. -/
def assignments (w : Window) (vars : List Var) : Nat :=
  vars.foldl (fun n v => n * match v.sort with
    | .bool => 2
    | .int => w.width) 1

end Window

end HornSaturation
