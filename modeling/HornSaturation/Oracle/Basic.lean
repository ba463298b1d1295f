import HornSaturation.Diagnostics
import HornSaturation.Oracle.Search
import HornSaturation.Oracle.Widening
import HornSaturation.Term.Folding
import HornSaturation.Vocabulary.Theory

/-!
# The oracle

The oracle answers whether the asserted formulas have a common model, by searching a window of
integers. A model is a model wherever it is found. A refutation of a formula about integers says
something about the window only, so it is confirmed on a wider window, which reaches past the
constants of the formula if that can be searched. A search with more assignments than the cap allows
is not begun, and its answer is open.
-/

namespace HornSaturation

/-- The state of an oracle. -/
structure Oracle where
  /-- The window in which models are searched first. -/
  window : Window
  /-- The greatest number of assignments that one search may try. -/
  cap : Nat
  /-- The asserted formulas, oldest first. -/
  assertions : List Term := []
  /-- The numbers of assertions at the open scopes, innermost first. -/
  frames : List Nat := []
  /-- The model found last. -/
  model : Model := []
  /-- The theories that have been announced. -/
  theories : List Theory := []
  /-- The names of the relations that have been announced. -/
  relations : List String := []
  /-- The number of checks so far. -/
  checks : Nat := 0
  /-- The number of implications among these checks. -/
  implications : Nat := 0
  /-- The assertions of each check, oldest first. -/
  asked : List (List Term) := []
  /-- The assertions of each check that was answered with a refutation, oldest first. -/
  refuted : List (List Term) := []

/-- The answer of a validity check. -/
inductive Validity where
  | valid
  | invalid
  | unknown
  deriving DecidableEq

/-- The name of a validity answer. -/
def Validity.render : Validity → String
  | .valid => "Valid"
  | .invalid => "Invalid"
  | .unknown => "Unknown"

namespace Oracle

/-- The default cap on the number of assignments. -/
def defaultCap : Nat := 1048576

/-- An oracle for the integers between two bounds, given in either order. -/
def ofBounds (a b : Int) (cap : Nat) : Oracle where
  window := ⟨min a b, max a b⟩
  cap := cap

/-- The number of open scopes. -/
def depth (o : Oracle) : Nat := o.frames.length

/-- Announces theories. -/
def declareTheories (o : Oracle) (ts : List Theory) : Oracle :=
  { o with theories := (o.theories ++ ts).eraseDups }

/-- Announces a relation. -/
def declareRelation (o : Oracle) (r : Relation) : Oracle :=
  if o.relations.contains r.name then o else { o with relations := o.relations ++ [r.name] }

/-- Opens a scope. -/
def push (o : Oracle) : Oracle := { o with frames := o.assertions.length :: o.frames }

/-- Closes the innermost scope, if there is one, and forgets what was asserted in it. -/
def pop (o : Oracle) : Oracle :=
  match o.frames with
  | n :: frames => { o with assertions := o.assertions.take n, frames }
  | [] => o

/-- Asserts a formula. -/
def assert (o : Oracle) (t : Term) : Oracle := { o with assertions := o.assertions ++ [t] }

/-- The formula that a check decides. -/
def goal (o : Oracle) : Term := (Term.conjoin o.assertions).foldConstants

/-- Searches a window, unless the cap forbids it. -/
def search (o : Oracle) (formula : Term) (vars : List Var) (w : Window) : SearchResult :=
  if w.assignments vars ≤ o.cap then searchWindow formula vars w else .undefined

/-- Searches the window and, for a refutation of a formula about integers, the wider window. -/
def decide (o : Oracle) (formula : Term) : SearchResult :=
  let vars := formula.vars
  match o.search formula vars o.window with
  | .refuted =>
    if vars.any (·.sort = .int) then
      match o.window.widened? o.cap formula vars with
      | some w => o.search formula vars w
      | none => .undefined
    else .refuted
  | result => result

/-- Checks whether the assertions have a common model, and keeps a model that it finds. -/
def check (o : Oracle) : Answer × Oracle :=
  let o := { o with checks := o.checks + 1, asked := o.asked ++ [o.assertions] }
  match o.decide o.goal with
  | .model m => (.sat, { o with model := m })
  | .refuted => (.unsat, { o with refuted := o.refuted ++ [o.assertions] })
  | .undefined => (.unknown, o)

/-- Checks whether formulas have a common model together with the assertions, in a scope of their
own. -/
def checkWith (o : Oracle) (ts : List Term) : Answer × Oracle :=
  let (answer, o) := (ts.foldl assert o.push).check
  (answer, o.pop)

/-- Checks whether a formula is true under every assignment. -/
def checkValid (o : Oracle) (t : Term) : Validity × Oracle :=
  match o.checkWith [t.negate] with
  | (.unsat, o) => (.valid, o)
  | (.sat, o) => (.invalid, o)
  | (.unknown, o) => (.unknown, o)

/-- Whether one formula is confirmed to imply another. -/
def implies (o : Oracle) (premise conclusion : Term) : Bool × Oracle :=
  let o := { o with implications := o.implications + 1 }
  match o.checkValid (.implication premise conclusion) with
  | (.valid, o) => (true, o)
  | (_, o) => (false, o)

/-- The value that a name without value is given. -/
def defaultValue (o : Oracle) : BaseSort → Value
  | .bool => .bool false
  | .int => .int (if o.window.contains 0 then 0 else o.window.lo)

/-- The last model, with default values for the variables of a term that it does not mention. -/
def completed (o : Oracle) (t : Term) : Assignment := fun name =>
  match o.model.lookup name with
  | some v => some v
  | none => (t.vars.find? (·.name = name)).map fun v => o.defaultValue v.sort

/-- The value of a term under the last model. -/
def eval (o : Oracle) (t : Term) : Option Value := t.eval (o.completed t)

end Oracle

end HornSaturation
