import HornSaturation.Clause.Problem
import HornSaturation.Reader.Cursor
import HornSaturation.Term.Arithmetic

/-!
# Reading tokens

The state of reading holds the place in the input, the sorts of the declared variables and the
problem read so far. Tokens are single expected characters, symbols (plain or between bars),
numerals and sorts; blanks and comments before a token are skipped.
-/

namespace HornSaturation.Reader

/-- The state of reading. -/
structure Reading where
  /-- The place in the input. -/
  cursor : Cursor
  /-- The sorts of the variables in scope, the latest declaration first. -/
  sorts : List (String × BaseSort) := []
  /-- What has been declared and stated so far. -/
  problem : Problem := {}

/-- A step of reading, which may find fault with the input. -/
abbrev Read := StateT Reading (Except Error)

/-- Stops reading with a fault. -/
def fail {α : Type} (fault : InputFault) : Read α := throw (.input fault)

/-- Moves to a place that depends on the current one. -/
def move (f : Cursor → Cursor) : Read Unit := modify fun s => { s with cursor := f s.cursor }

/-- Skips blanks and comments. -/
def skipBlanks : Read Unit := move Cursor.skipBlanks

/-- The next character, which stays to be read. -/
def peek? : Read (Option Char) := return (← get).cursor.peek?

/-- Reads a run of characters with a property. -/
def readRun (p : Char → Bool) : Read (List Char) := do
  let s ← get
  let (run, cursor) := s.cursor.span p
  set { s with cursor }
  return run

/-- Reads one expected character. -/
def expect (expected : Char) : Read Unit := do
  skipBlanks
  match ← peek? with
  | some c =>
    if c = expected then move Cursor.advance
    else fail (.expectedChar expected c (← get).cursor.offset)
  | none => fail (.expectedBeforeEnd expected)

/-- Reads a symbol. Between bars every character belongs to it, and a missing second bar is taken to
stand at the end of the input. -/
def readSymbol : Read String := do
  skipBlanks
  if (← peek?) = some '|' then
    move Cursor.advance
    let name ← readRun (· ≠ '|')
    move Cursor.advance
    return String.ofList name
  else
    let name ← readRun isSymbolChar
    if name.isEmpty then fail (.expectedSymbol (← get).cursor.offset)
    return String.ofList name

/-- Reads a numeral that fits into the 64-bit range. -/
def readNumeral : Read Int := do
  let digits ← readRun Char.isDigit
  match (Text.decimal? digits).filter (· ≤ int64Max) with
  | some n => return n
  | none => fail (.invalidNumeral (String.ofList digits))

/-- Reads one of the supported sorts. -/
def readSort : Read BaseSort := do
  match ← readSymbol with
  | "Bool" => return .bool
  | "Int" => return .int
  | name => fail (.unsupportedSort name)

/-- The sort of a variable in scope. -/
def sortOf? (name : String) : Read (Option BaseSort) := return (← get).sorts.lookup name

/-- Brings a variable into scope with a sort, or takes it out of scope. -/
def setSort (name : String) (sort : Option BaseSort) : Read Unit := modify fun s =>
  let others := s.sorts.filter (·.1 ≠ name)
  { s with sorts := match sort with
    | some sort => (name, sort) :: others
    | none => others }

end HornSaturation.Reader
