import HornSaturation.Oracle.Window
import HornSaturation.Term.Eval
import HornSaturation.Term.Variables

/-!
# Search for models in a window

A formula is searched for a model by trying all assignments of values to its variables, where
booleans and the integers of a window are tried in a fixed order: `false` before `true`, integers by
magnitude with the positive one first, and the first variable changes fastest. The search ends with
the first model, or with the news whether the formula was undefined anywhere.
-/

namespace HornSaturation

/-- Values given to names; the first entry of a name counts. -/
abbrev Model := List (String × Value)

/-- What a search finds. -/
inductive SearchResult where
  /-- A model of the formula. -/
  | model (m : Model)
  /-- No model, and the formula was defined everywhere. -/
  | refuted
  /-- No model, but the formula was undefined somewhere. -/
  | undefined

/-- The first model that a list of searches finds, or what they amount to together with an earlier
result that is no model. -/
def firstModel {α : Type} (search : α → SearchResult) (sofar : SearchResult) :
    List α → SearchResult
  | [] => sofar
  | a :: rest =>
    match search a with
    | .model m => .model m
    | .refuted => firstModel search sofar rest
    | .undefined => firstModel search .undefined rest

/-- Tests one assignment. -/
def testModel (formula : Term) (m : Model) : SearchResult :=
  match formula.eval fun name => m.lookup name with
  | some (.bool true) => .model m
  | some _ => .refuted
  | none => .undefined

/-- Tries all values for the variables of a list, the last of which changes fastest, beside values
already given. -/
def searchFrom (formula : Term) (integers : List Int) : List Var → Model → SearchResult
  | [], m => testModel formula m
  | v :: vs, m =>
    match v.sort with
    | .bool =>
      firstModel (fun b => searchFrom formula integers vs ((v.name, .bool b) :: m)) .refuted
        [false, true]
    | .int =>
      firstModel (fun n => searchFrom formula integers vs ((v.name, .int n) :: m)) .refuted integers

/-- The variables to try values for, slowest first. Values are given to names, so of two variables
with one name only the later one counts. -/
def searchOrder (vars : List Var) : List Var :=
  vars.reverse.eraseDupsBy fun a b => a.name == b.name

/-- Searches a window for a model of a formula. The integers of the window are listed here only if
there is a variable to give them to. A solver that lists them before every search finds the same, as
long as the list can be allocated: a window that is too large for that makes it break down also on
formulas without integer variables, which this definition does not show. -/
def searchWindow (formula : Term) (vars : List Var) (w : Window) : SearchResult :=
  let integers := if vars.any (·.sort = .int) then w.integers else []
  searchFrom formula integers (searchOrder vars) []

end HornSaturation
