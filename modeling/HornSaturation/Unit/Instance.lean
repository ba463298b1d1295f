import HornSaturation.Unit.Basic
import HornSaturation.Vocabulary.Symbols

/-!
# Instances of units

To use a unit in an inference its locals are renamed to fresh symbols, so that one unit can stand in
several places without its locals being taken for the same.
-/

namespace HornSaturation

/-- A step that may take fresh symbols and may fail. Symbols stay taken when it fails. -/
abbrev Allocating := ExceptT Error (StateM Symbols)

/-- Takes a fresh symbol for each variable of a list, with the same sort. -/
def freshLocals : List Var → Allocating (List Var)
  | [] => return []
  | v :: vs => do
    let w ← modifyGet fun s : Symbols => s.fresh "l" v.sort
    return w :: (← freshLocals vs)

/-- The constraint of a unit with its arguments at an occurrence and with fresh locals, so that one
unit can serve in several places of one inference. -/
def UnitClause.instantiate (relations : List Relation) (u : UnitClause) (occurrence : Nat) :
    Allocating Term := do
  let move ← u.moveArguments relations occurrence
  let locals ← u.locals relations
  let renamed ← freshLocals locals
  return u.constraint.substitute (move ++ .ofVars locals renamed)

end HornSaturation
