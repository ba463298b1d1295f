/-!
# Background theories

Constraints draw on the theory of booleans and equality and, if they speak about integers, on
integer arithmetic.
-/

namespace HornSaturation

/-- A background theory that constraints draw on. -/
inductive Theory where
  | core
  | ints
  deriving DecidableEq

/-- The SMT-LIB name of a theory. -/
def Theory.render : Theory → String
  | .core => "Core"
  | .ints => "Ints"

end HornSaturation
