import HornSaturation.Oracle.Basic
import HornSaturation.Unit.Instance

/-!
# Working with an oracle and fresh symbols

Searching for an answer needs an oracle to ask and symbols to take. Both belong to the caller and
keep their state when a step fails.
-/

namespace HornSaturation

/-- The oracle and the symbols of a search. -/
structure Workspace where
  oracle : Oracle
  symbols : Symbols := {}

/-- A step that may ask the oracle, take symbols and fail. -/
abbrev Working := ExceptT Error (StateM Workspace)

/-- Takes symbols. -/
def Working.allocate {α : Type} (step : Allocating α) : Working α :=
  ExceptT.mk fun w =>
    let (result, symbols) := step.run.run w.symbols
    (result, { w with symbols })

/-- Asks the oracle. -/
def Working.ask {α : Type} (question : Oracle → α × Oracle) : Working α :=
  ExceptT.mk fun w =>
    let (answer, oracle) := question w.oracle
    (.ok answer, { w with oracle })

end HornSaturation
