import HornSaturation.Term.Basic

/-!
# SMT-LIB text of terms

Every application is written in parentheses, also one without arguments; only a relation without
arguments is written as a bare name. SMT-LIB has no negative numerals, so a negative constant is
written as an application of `-`.
-/

namespace HornSaturation.Term

/-- The numeral of a constant. -/
def renderInt (n : Int) : String :=
  if n < 0 then "(- " ++ toString n.natAbs ++ ")" else toString n

mutual
/-- The SMT-LIB text of a term. -/
def render : Term → String
  | .bool true => "true"
  | .bool false => "false"
  | .int n => renderInt n
  | .var v => v.name
  | .op o args => "(" ++ o.render ++ renderArgs args ++ ")"
  | .app name _ [] => name
  | .app name _ args@(_ :: _) => "(" ++ name ++ renderArgs args ++ ")"
/-- The texts of arguments, each after a blank. -/
def renderArgs : List Term → String
  | [] => ""
  | t :: ts => " " ++ render t ++ renderArgs ts
end

end HornSaturation.Term
