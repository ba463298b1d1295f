import HornSaturation.Reader.Commands

/-!
# Reading by byte offsets

A text can be read where it lies, with nothing but a byte offset for the place in it. A step looks
at the character at the offset and moves the offset on by a number of bytes, and a name is cut out
between two offsets. Such a reader can go wrong where one that takes characters off a list cannot:
an offset inside a character is no place to look at or to cut, and a loop that does not move its
offset never ends. Here both are outcomes of their own. No loop and no recursion is bounded by what
is left of the text; each is given a number of rounds, and has no result if it needs more.
-/

namespace HornSaturation.Reader.ByOffset

/-- The state of reading by offsets. -/
structure State where
  /-- The number of bytes before the place in the text. -/
  offset : Nat
  /-- The sorts of the variables in scope, the latest declaration first. -/
  sorts : List (String × BaseSort) := []
  /-- What has been declared and stated so far. -/
  problem : Problem := {}

/-- Why reading stops before its end. -/
inductive Stop where
  /-- The text was to be looked at or cut at an offset that is no boundary between characters. -/
  | cut (offset : Nat)
  /-- A numeral was to be read where none starts. -/
  | noNumeral
  /-- The input is at fault. -/
  | fault (e : Error)

/-- A step of reading by offsets. It gives a result and the next state or stops, or else it is not
at its end after the rounds that it is given, for which `none` stands. -/
abbrev Step := StateT State (ExceptT Stop Option)

/-- A step of reading that is out of rounds. -/
def goesOn {α : Type} : Step α := fun _ => none

/-- A step of reading that leaves the text alone. -/
def aside {α : Type} (x : Read α) : Step α := fun b =>
  match x.run ⟨⟨[], b.offset⟩, b.sorts, b.problem⟩ with
  | .ok (a, s) => some (.ok (a, ⟨b.offset, s.sorts, s.problem⟩))
  | .error e => some (.error (.fault e))

/-- The offset of the current place. -/
def offset : Step Nat := return (← get).offset

/-- Moves the offset on by a number of bytes. -/
def move (bytes : Nat) : Step Unit := modify fun b => { b with offset := b.offset + bytes }

section Looking

variable (text : String)

/-- The character at the current place, if it is not the end of the text. -/
def current? : Step (Option Char) := do
  let o ← offset
  match text.pos? ⟨o⟩ with
  | some p => return p.get?
  | none => throw (.cut o)

/-- Cuts out the text from an offset to the current place. -/
def cutFrom (start : Nat) : Step String := do
  let stop ← offset
  match text.pos? ⟨start⟩, text.pos? ⟨stop⟩ with
  | some p, some q => if p ≤ q then return String.extract p q else throw (.cut start)
  | none, _ => throw (.cut start)
  | _, none => throw (.cut stop)

/-- Whether the current place is before the end of the text. -/
def inText : Step Bool := return decide ((← offset) < text.utf8ByteSize)

end Looking

section Loops

variable (text : String)

/-- Skips the characters with a property, each of which is taken to have some width. -/
def skipWhile (p : Char → Bool) (width : Char → Nat) : (rounds : Nat) → Step Unit
  | 0 => goesOn
  | n + 1 => do
    match ← current? text with
    | some c =>
      if p c then
        move (width c)
        skipWhile p width n
    | none => return

/-- Skips blanks and comments. -/
def skipBlanks : (rounds : Nat) → Step Unit
  | 0 => goesOn
  | n + 1 => do
    match ← current? text with
    | some c =>
      if Text.isBlank c then
        move c.utf8Size
        skipBlanks n
      else if c = ';' then
        skipWhile text (· ≠ '\n') Char.utf8Size (n + 1)
        skipBlanks n
    | none => return

/-- Skips to the end of a group that is open, with `depth` groups open in all. -/
def skipGroup : (depth rounds : Nat) → Step Unit
  | _, 0 => goesOn
  | depth, n + 1 => do
    if 0 < depth && (← inText text) then
      let c ← current? text
      let depth := match c with
        | some '(' => depth + 1
        | some ')' => depth - 1
        | _ => depth
      move (c.elim 1 Char.utf8Size)
      skipGroup depth n

/-- Skips to the next bar, or to the end of the text. -/
def skipToBar : (rounds : Nat) → Step Unit
  | 0 => goesOn
  | n + 1 => do
    if ← inText text then
      let c ← current? text
      if c ≠ some '|' then
        move (c.elim 1 Char.utf8Size)
        skipToBar n

end Loops

variable (text : String) (rounds : Nat)

/-- Reads one expected character, which is taken to be one byte wide. -/
def expect (expected : Char) : Step Unit := do
  skipBlanks text rounds
  match ← current? text with
  | some c =>
    if c = expected then move 1
    else aside (fail (.expectedChar expected c (← offset)))
  | none => aside (fail (.expectedBeforeEnd expected))

/-- Reads a symbol. -/
def readSymbol : Step String := do
  skipBlanks text rounds
  if (← current? text) = some '|' then
    move 1
    let start ← offset
    skipToBar text rounds
    let name ← cutFrom text start
    if (← current? text) = some '|' then move 1
    return name
  else
    let start ← offset
    skipWhile text isSymbolChar Char.utf8Size rounds
    if start = (← offset) then aside (fail (.expectedSymbol start))
    cutFrom text start

/-- Reads a numeral that fits into the 64-bit range. -/
def readNumeral : Step Int := do
  skipBlanks text rounds
  let start ← offset
  skipWhile text Char.isDigit (fun _ => 1) rounds
  if start = (← offset) then throw .noNumeral
  let digits ← cutFrom text start
  match (Text.decimal? digits.toList).filter (· ≤ int64Max) with
  | some n => return n
  | none => aside (fail (.invalidNumeral digits))

/-- Reads one of the supported sorts. -/
def readSort : Step BaseSort := do
  skipBlanks text rounds
  match ← readSymbol text rounds with
  | "Bool" => return .bool
  | "Int" => return .int
  | name => aside (fail (.unsupportedSort name))

/-- Reads the term that a single name stands for. -/
def readName : Step Term := do
  let name ← readSymbol text rounds
  aside do return nameTerm (← get).problem (← sortOf? name) name

section Forms

variable (readTerm : Step Term) (readArgs : Step (List Term))
  (readBindings : Step (List (String × Term))) (readBound : Step Unit)

/-- Reads a `let` after its name. -/
def readLet : Step Term := do
  expect text rounds '('
  let bindings ← readBindings
  expect text rounds ')'
  let old ← aside (enterScope bindings)
  let body ← readTerm
  expect text rounds ')'
  aside (leaveScope old)
  return body.substitute (bindingSubstitution bindings)

/-- Reads a quantified term after the name of its quantifier. -/
def readQuantified : Step Term := do
  expect text rounds '('
  readBound
  expect text rounds ')'
  let body ← readTerm
  expect text rounds ')'
  return body

/-- Reads an application after its name. -/
def readApplication (name : String) : Step Term := do
  let args ← readArgs
  expect text rounds ')'
  aside do applyName (← get).problem name args

/-- Reads a term in parentheses. -/
def readCompound : Step Term := do
  expect text rounds '('
  let name ← readSymbol text rounds
  skipBlanks text rounds
  match name with
  | "let" => readLet text rounds readTerm readBindings
  | "forall" | "exists" => readQuantified text rounds readTerm readBound
  | _ => readApplication text rounds readArgs name

end Forms

/-- Reads the variables of a quantifier up to a closing parenthesis, and declares them. -/
def readBound : Nat → Step Unit
  | 0 => goesOn
  | n + 1 => do
    skipBlanks text rounds
    if (← current? text) = some ')' then return
    expect text rounds '('
    let name ← readSymbol text rounds
    let sort ← readSort text rounds
    expect text rounds ')'
    aside (setSort name (some sort))
    readBound n

mutual
/-- Reads a term. -/
def readTerm : Nat → Step Term
  | 0 => goesOn
  | n + 1 => do
    skipBlanks text rounds
    match ← current? text with
    | some c =>
      if c = '(' then
        readCompound text rounds (readTerm n) (readArgs n) (readBindings n)
          (readBound text rounds n)
      else if c.isDigit then return .int (← readNumeral text rounds)
      else readName text rounds
    | none => aside (fail .unexpectedEnd)
/-- Reads terms up to a closing parenthesis. -/
def readArgs : Nat → Step (List Term)
  | 0 => goesOn
  | n + 1 => do
    skipBlanks text rounds
    if (← current? text) = some ')' then return []
    let t ← readTerm n
    return t :: (← readArgs n)
/-- Reads the bindings of a `let` up to a closing parenthesis. -/
def readBindings : Nat → Step (List (String × Term))
  | 0 => goesOn
  | n + 1 => do
    skipBlanks text rounds
    if (← current? text) = some ')' then return []
    expect text rounds '('
    let name ← readSymbol text rounds
    let value ← readTerm n
    expect text rounds ')'
    return (name, value) :: (← readBindings n)
end

/-- Reads sorts up to a closing parenthesis. -/
def readSorts : Nat → Step (List BaseSort)
  | 0 => goesOn
  | n + 1 => do
    skipBlanks text rounds
    if (← current? text) = some ')' then return []
    let sort ← readSort text rounds
    return sort :: (← readSorts n)

/-- Reads the declaration of a relation; a function declaration has to have the result sort `Bool`.
-/
def readRelation (isFunction : Bool) : Step Unit := do
  let name ← readSymbol text rounds
  skipBlanks text rounds
  expect text rounds '('
  let sorts ← readSorts text rounds rounds
  expect text rounds ')'
  if isFunction then
    if (← readSort text rounds) ≠ .bool then aside (fail (.functionDeclared name))
  aside (modifyProblem (·.declare name sorts))

/-- Reads the declaration of a variable. -/
def readVariable : Step Unit := do
  let name ← readSymbol text rounds
  let sort ← readSort text rounds
  aside (setSort name (some sort))

/-- Reads a formula and states the clause that it amounts to. -/
def readRule : Step Unit := do
  match Clause.ofFormula? (← readTerm text rounds rounds) with
  | some c => aside (modifyProblem (·.addClause c))
  | none => return

/-- Reads a query: a formula, or the name of a relation. -/
def readQuery : Step Unit := do
  if (← current? text) = some '(' then
    let t ← readTerm text rounds rounds
    aside (modifyProblem (·.addClause (.ofBody t)))
  else
    let name ← readSymbol text rounds
    aside do
      match (← get).problem.named? name with
      | some r => modifyProblem (·.addClause (emptinessQuery r))
      | none => fail (.unknownQueryRelation name)

/-- Reads the end of a command. -/
def finishCommand : Step Unit := do
  skipBlanks text rounds
  expect text rounds ')'

/-- Reads a command, if there is one before the end of the text. -/
def readCommand : Step Unit := do
  skipBlanks text rounds
  if ← inText text then
    expect text rounds '('
    skipBlanks text rounds
    let name ← readSymbol text rounds
    skipBlanks text rounds
    match name with
    | "set-logic" => do
      let _ ← readSymbol text rounds
      finishCommand text rounds
    | "declare-rel" => do readRelation text rounds false; finishCommand text rounds
    | "declare-fun" => do readRelation text rounds true; finishCommand text rounds
    | "declare-var" | "declare-const" => do readVariable text rounds; finishCommand text rounds
    | "rule" | "assert" => do readRule text rounds; finishCommand text rounds
    | "query" => do readQuery text rounds; finishCommand text rounds
    | _ => skipGroup text 1 rounds

/-- Reads commands up to the end of the text. -/
def readCommands : Nat → Step Unit
  | 0 => goesOn
  | n + 1 => do
    if ← inText text then
      skipBlanks text rounds
      if ← inText text then
        readCommand text rounds
        readCommands n

/-- Reads a problem. -/
def read : Option (Except Stop Problem) :=
  ((readCommands text rounds rounds).run { offset := 0 }).run.map fun r =>
    r.map fun r => r.2.problem

end HornSaturation.Reader.ByOffset
