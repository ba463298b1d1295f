import HornSaturation.Clause.OfFormula
import HornSaturation.Reader.Terms

/-!
# Reading problems

A problem is a sequence of commands: declarations of relations and variables, rules and queries.
Commands without meaning for the problem are skipped.
-/

namespace HornSaturation.Reader

/-- Changes the problem read so far. -/
def modifyProblem (f : Problem → Problem) : Read Unit :=
  modify fun s => { s with problem := f s.problem }

/-- Reads sorts up to a closing parenthesis, at most the given number of them. -/
def readSortsWithin : Nat → Read (List BaseSort)
  | 0 => fail .unexpectedEnd
  | n + 1 => do
    skipBlanks
    if (← peek?) = some ')' then return []
    let sort ← readSort
    return sort :: (← readSortsWithin n)

/-- Reads the declaration of a relation; a function declaration has to have the result sort `Bool`.
-/
def readRelation (isFunction : Bool) : Read Unit := do
  let name ← readSymbol
  skipBlanks
  expect '('
  let sorts ← readSortsWithin ((← get).cursor.rest.length + 1)
  expect ')'
  if isFunction then
    if (← readSort) ≠ .bool then fail (.functionDeclared name)
  modifyProblem (·.declare name sorts)

/-- Reads the declaration of a variable. -/
def readVariable : Read Unit := do
  let name ← readSymbol
  let sort ← readSort
  setSort name (some sort)

/-- Reads a formula and states the clause that it amounts to. -/
def readRule : Read Unit := do
  match Clause.ofFormula? (← readTerm) with
  | some c => modifyProblem (·.addClause c)
  | none => return

/-- The query whether a relation has any element. -/
def emptinessQuery (r : Relation) : Clause where
  body := [⟨r.id, r.sorts.mapIdx fun i sort => .var ⟨"_qv" ++ toString i, sort⟩⟩]
  constraint := none
  head := none

/-- Reads a query: a formula, or the name of a relation. -/
def readQuery : Read Unit := do
  if (← peek?) = some '(' then
    let t ← readTerm
    modifyProblem (·.addClause (.ofBody t))
  else
    let name ← readSymbol
    match (← get).problem.named? name with
    | some r => modifyProblem (·.addClause (emptinessQuery r))
    | none => fail (.unknownQueryRelation name)

/-- Reads the end of a command. -/
def finishCommand : Read Unit := do
  skipBlanks
  expect ')'

/-- Reads a command. -/
def readCommand : Read Unit := do
  expect '('
  skipBlanks
  let name ← readSymbol
  skipBlanks
  match name with
  | "set-logic" => do
    let _ ← readSymbol
    finishCommand
  | "declare-rel" => do readRelation false; finishCommand
  | "declare-fun" => do readRelation true; finishCommand
  | "declare-var" | "declare-const" => do readVariable; finishCommand
  | "rule" | "assert" => do readRule; finishCommand
  | "query" => do readQuery; finishCommand
  | _ => move Cursor.skipGroup

/-- Reads commands up to the end of the input, at most the given number of them. -/
def readCommandsWithin : Nat → Read Unit
  | 0 => return
  | n + 1 => do
    skipBlanks
    if (← peek?).isSome then
      readCommand
      readCommandsWithin n

end HornSaturation.Reader

namespace HornSaturation

/-- Reads a problem. -/
def Problem.read (text : String) : Except Error Problem := do
  let s : Reader.Reading := { cursor := .start text }
  let (_, s) ← (Reader.readCommandsWithin text.toList.length).run s
  return s.problem

end HornSaturation
