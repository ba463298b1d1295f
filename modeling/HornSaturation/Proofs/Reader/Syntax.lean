import HornSaturation.Reader.Commands

/-!
# Texts by their syntax

Reading finds out how a text is put together and looks names up as it goes. Here the two are apart.
Parsing takes a text to forms and commands, which still hold the names that are written, and needs
to know nothing about declarations. Resolving looks the names of a form up in a scope. Quantifiers
declare their variables in the scope and leave them there.
-/

namespace HornSaturation.Reader

/-- A term as it is written. -/
inductive Form where
  | numeral (n : Int)
  | name (x : String)
  /-- A name in front of arguments. -/
  | apply (f : String) (args : List Form)
  /-- Values that names stand for in a body. -/
  | letIn (bindings : List (String × Form)) (body : Form)
  /-- A body with quantified variables; which quantifier it is makes no difference. -/
  | quantified (bound : List (String × BaseSort)) (body : Form)

/-- A command as it is written. -/
inductive Command where
  /-- A command without meaning for the problem. -/
  | idle
  | relation (name : String) (sorts : List BaseSort)
  | declare (name : String) (sort : BaseSort)
  | rule (formula : Form)
  | query (formula : Form)
  /-- The query whether a relation has any element. -/
  | emptiness (name : String)

/-! ### Parsing -/

/-- Parsing moves through a text and gives up at a fault. -/
abbrev Parse := StateT Cursor Option

/-- What a step of reading does to the place in the text. -/
def scan {α : Type} (x : Read α) : Parse α := fun c =>
  match x.run { cursor := c } with
  | .ok (a, s) => some (a, s.cursor)
  | .error _ => none

mutual
/-- Parses a term. -/
def formWithin : Nat → Parse Form
  | 0 => failure
  | n + 1 => do
    scan skipBlanks
    match ← scan peek? with
    | some '(' =>
      scan (expect '(')
      let name ← scan readSymbol
      scan skipBlanks
      match name with
      | "let" =>
        scan (expect '(')
        let bindings ← bindingsWithin n
        scan (expect ')')
        let body ← formWithin n
        scan (expect ')')
        return .letIn bindings body
      | "forall" | "exists" =>
        scan (expect '(')
        let bound ← boundWithin n
        scan (expect ')')
        let body ← formWithin n
        scan (expect ')')
        return .quantified bound body
      | _ =>
        let args ← argsWithin n
        scan (expect ')')
        return .apply name args
    | some c =>
      if c.isDigit then return .numeral (← scan readNumeral) else return .name (← scan readSymbol)
    | none => failure
/-- Parses terms up to a closing parenthesis. -/
def argsWithin : Nat → Parse (List Form)
  | 0 => failure
  | n + 1 => do
    scan skipBlanks
    if (← scan peek?) = some ')' then return []
    let f ← formWithin n
    return f :: (← argsWithin n)
/-- Parses the bindings of a `let` up to a closing parenthesis. -/
def bindingsWithin : Nat → Parse (List (String × Form))
  | 0 => failure
  | n + 1 => do
    scan skipBlanks
    if (← scan peek?) = some ')' then return []
    scan (expect '(')
    let name ← scan readSymbol
    let value ← formWithin n
    scan (expect ')')
    return (name, value) :: (← bindingsWithin n)
/-- Parses the variables of a quantifier up to a closing parenthesis. -/
def boundWithin : Nat → Parse (List (String × BaseSort))
  | 0 => failure
  | n + 1 => do
    scan skipBlanks
    if (← scan peek?) = some ')' then return []
    scan (expect '(')
    let name ← scan readSymbol
    let sort ← scan readSort
    scan (expect ')')
    return (name, sort) :: (← boundWithin n)
end

/-- Parses a term. -/
def parseForm : Parse Form := fun c => formWithin (c.rest.length + 1) c

/-- Parses the declaration of a relation. -/
def parseRelation (isFunction : Bool) : Parse Command := do
  let name ← scan readSymbol
  scan skipBlanks
  scan (expect '(')
  let sorts ← fun c => scan (readSortsWithin (c.rest.length + 1)) c
  scan (expect ')')
  if isFunction then
    if (← scan readSort) ≠ .bool then failure
  return .relation name sorts

/-- Parses the declaration of a variable. -/
def parseVariable : Parse Command := do
  let name ← scan readSymbol
  let sort ← scan readSort
  return .declare name sort

/-- Parses a rule. -/
def parseRule : Parse Command := do return .rule (← parseForm)

/-- Parses a query. -/
def parseQuery : Parse Command := do
  if (← scan peek?) = some '(' then
    return .query (← parseForm)
  else
    return .emptiness (← scan readSymbol)

/-- Parses a command behind its first parenthesis. -/
def parseCommandBody : Parse Command := do
  scan skipBlanks
  let name ← scan readSymbol
  scan skipBlanks
  match name with
  | "set-logic" => do
    let _ ← scan readSymbol
    scan finishCommand
    return .idle
  | "declare-rel" => do let c ← parseRelation false; scan finishCommand; return c
  | "declare-fun" => do let c ← parseRelation true; scan finishCommand; return c
  | "declare-var" | "declare-const" => do let c ← parseVariable; scan finishCommand; return c
  | "rule" | "assert" => do let c ← parseRule; scan finishCommand; return c
  | "query" => do let c ← parseQuery; scan finishCommand; return c
  | _ => do scan (move Cursor.skipGroup); return .idle

/-- Parses a command. -/
def parseCommand : Parse Command := do
  scan (expect '(')
  parseCommandBody

/-- Parses commands up to the end of the input, at most the given number of them. -/
def commandsWithin : Nat → Parse (List Command)
  | 0 => return []
  | n + 1 => do
    scan skipBlanks
    if (← scan peek?).isSome then
      let c ← parseCommand
      return c :: (← commandsWithin n)
    else return []

/-! ### Resolving -/

/-- The sorts of the declared variables. -/
abbrev Scope := String → Option BaseSort

namespace Scope

/-- The scope with a variable given a sort, or taken out. -/
def assign (x : String) (sort : Option BaseSort) (σ : Scope) : Scope :=
  fun y => if y = x then sort else σ y

/-- The scope in the body of a `let`, with what the names stood for before. -/
def enter : List (String × Term) → Scope → List (String × Option BaseSort) × Scope
  | [], σ => ([], σ)
  | (x, t) :: bindings, σ =>
    let (old, σ') := enter bindings (σ.assign x t.sort)
    ((x, σ x) :: old, σ')

/-- The scope with what names stood for before. -/
def leave : List (String × Option BaseSort) → Scope → Scope
  | [], σ => σ
  | (x, old) :: rest, σ => leave rest (σ.assign x old)

/-- The scope with some more variables. -/
def declare : List (String × BaseSort) → Scope → Scope
  | [], σ => σ
  | (x, sort) :: rest, σ => declare rest (σ.assign x sort)

end Scope

namespace Form

mutual
/-- The term that a form stands for, and the scope that it leaves behind. -/
def resolve (p : Problem) : Form → Scope → Option (Term × Scope)
  | numeral n, σ => some (.int n, σ)
  | name x, σ => some (nameTerm p (σ x) x, σ)
  | apply f args, σ => do
    let (ts, σ) ← resolveArgs p args σ
    let t ← (applyName p f ts).toOption
    return (t, σ)
  | letIn bindings body, σ => do
    let (values, σ) ← resolveBindings p bindings σ
    let (old, σ) := σ.enter values
    let (t, σ) ← resolve p body σ
    return (t.substitute (bindingSubstitution values), σ.leave old)
  | quantified bound body, σ => resolve p body (σ.declare bound)
/-- The terms that forms stand for. -/
def resolveArgs (p : Problem) : List Form → Scope → Option (List Term × Scope)
  | [], σ => some ([], σ)
  | f :: fs, σ => do
    let (t, σ) ← resolve p f σ
    let (ts, σ) ← resolveArgs p fs σ
    return (t :: ts, σ)
/-- The values of the bindings of a `let`. -/
def resolveBindings (p : Problem) :
    List (String × Form) → Scope → Option (List (String × Term) × Scope)
  | [], σ => some ([], σ)
  | (x, f) :: rest, σ => do
    let (t, σ) ← resolve p f σ
    let (values, σ) ← resolveBindings p rest σ
    return ((x, t) :: values, σ)
end

end Form

/-- The declared variables and the problem at some point of a text. -/
structure Context where
  scope : Scope := fun _ => none
  problem : Problem := {}

/-- What a command does to the declared variables and the problem. -/
def Command.perform : Command → Context → Option Context
  | idle, Γ => some Γ
  | relation name sorts, Γ => some { Γ with problem := Γ.problem.declare name sorts }
  | declare x sort, Γ => some { Γ with scope := Γ.scope.assign x sort }
  | rule f, Γ => do
    let (t, σ) ← f.resolve Γ.problem Γ.scope
    return ⟨σ, (Clause.ofFormula? t).elim Γ.problem Γ.problem.addClause⟩
  | query f, Γ => do
    let (t, σ) ← f.resolve Γ.problem Γ.scope
    return ⟨σ, Γ.problem.addClause (.ofBody t)⟩
  | emptiness name, Γ => do
    let r ← Γ.problem.named? name
    return { Γ with problem := Γ.problem.addClause (emptinessQuery r) }

/-- What commands do one after the other. -/
def performAll : List Command → Context → Option Context
  | [], Γ => some Γ
  | c :: cs, Γ => do performAll cs (← c.perform Γ)

end HornSaturation.Reader
