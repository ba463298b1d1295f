/-!
# Decimal numbers

Reading natural numbers written with ASCII digits. Leading zeros are harmless.
-/

namespace HornSaturation.Text

/-- The number that a non-empty row of digits denotes. -/
def decimal? (digits : List Char) : Option Nat :=
  if digits.isEmpty || !digits.all Char.isDigit then none
  else some (digits.foldl (fun n c => 10 * n + (c.toNat - '0'.toNat)) 0)

/-- The greatest number that a machine index can hold. -/
def indexMax : Nat := 18446744073709551615

/-- The index that a text denotes: digits, with at most one plus sign before them. -/
def index? (text : List Char) : Option Nat :=
  let digits := match text with
    | '+' :: ds => ds
    | ds => ds
  (decimal? digits).filter (· ≤ indexMax)

end HornSaturation.Text
