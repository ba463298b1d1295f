import HornSaturation.Reader.Tokens
import HornSaturation.Term.Connectives
import HornSaturation.Term.Variables

/-!
# Reading terms

Terms are read with their binders resolved: a `let` is replaced by its values in its body, and a
quantifier brings its variables into scope and leaves its body behind. A name stands for a relation
without arguments if one is declared, and otherwise for a variable; a variable without a declared
sort is an integer.

Every nested term is shorter than what is left of the input, so the number of characters left bounds
the depth of the recursion.
-/

namespace HornSaturation.Reader

/-- The operator that a name stands for with a number of arguments. -/
def operator? (name : String) (count : Nat) : Option Op :=
  match name with
  | "not" => some .not
  | "=>" => some .implies
  | "=" => some .eq
  | "distinct" => some .ne
  | "<" => some .lt
  | "<=" => some .le
  | ">" => some .gt
  | ">=" => some .ge
  | "+" => some .add
  | "-" => some (if count = 1 then .neg else .sub)
  | "*" => some .mul
  | "div" => some .div
  | "mod" => some .mod
  | "ite" => some .ite
  | _ => none

/-- The number of arguments that an operator takes; sums, differences and products take any number
but none. -/
def arity? : Op → Option Nat
  | .not | .neg => some 1
  | .ite => some 3
  | .add | .sub | .mul => none
  | _ => some 2

/-- Applies a name to arguments. -/
def applyName (p : Problem) (name : String) (args : List Term) : Except Error Term :=
  match name with
  | "and" => .ok (.conjoin args)
  | "or" => .ok (.disjoin args)
  | _ =>
    match operator? name args.length with
    | some o =>
      match arity? o with
      | some n =>
        if args.length = n then .ok (.op o args)
        else .error (.input (.argumentCount name n args.length))
      | none =>
        if args.isEmpty then .error (.input (.noArguments name)) else .ok (.op o args)
    | none =>
      match p.named? name with
      | some r =>
        if args.length = r.arity then .ok (.app name r.id args)
        else .error (.arityMismatch name r.arity args.length)
      | none => .error (.input (.unknownFunction name))

/-- The term that a name stands for. -/
def nameTerm (p : Problem) (sort : Option BaseSort) (name : String) : Term :=
  match name with
  | "true" => .bool true
  | "false" => .bool false
  | _ =>
    match p.named? name with
    | some ⟨id, _, []⟩ => .app name id []
    | _ => .var ⟨name, sort.getD .int⟩

/-- Reads the term that a single name stands for. -/
def readName : Read Term := do
  let name ← readSymbol
  let sort ← sortOf? name
  return nameTerm (← get).problem sort name

/-- Brings the names of a `let` into scope with the sorts of their values, one after the other, and
gives back what they stood for before. -/
def enterScope : List (String × Term) → Read (List (String × Option BaseSort))
  | [] => return []
  | (name, value) :: bindings => do
    let old ← sortOf? name
    setSort name (some value.sort)
    return (name, old) :: (← enterScope bindings)

/-- Gives names the sorts that they had before. -/
def leaveScope : List (String × Option BaseSort) → Read Unit
  | [] => return
  | (name, old) :: rest => do
    setSort name old
    leaveScope rest

/-- The substitution that a list of bindings stands for. -/
def bindingSubstitution (bindings : List (String × Term)) : Substitution :=
  bindings.map fun (name, value) => (⟨name, value.sort⟩, value)

mutual
/-- Reads a term. -/
def readTermWithin : Nat → Read Term
  | 0 => fail .unexpectedEnd
  | n + 1 => do
    skipBlanks
    match ← peek? with
    | some '(' =>
      expect '('
      let name ← readSymbol
      skipBlanks
      match name with
      | "let" =>
        expect '('
        let bindings ← readBindingsWithin n
        expect ')'
        let old ← enterScope bindings
        let body ← readTermWithin n
        expect ')'
        leaveScope old
        return body.substitute (bindingSubstitution bindings)
      | "forall" | "exists" =>
        expect '('
        readBoundWithin n
        expect ')'
        let body ← readTermWithin n
        expect ')'
        return body
      | _ =>
        let args ← readArgsWithin n
        expect ')'
        applyName (← get).problem name args
    | some c => if c.isDigit then return .int (← readNumeral) else readName
    | none => fail .unexpectedEnd
/-- Reads terms up to a closing parenthesis. -/
def readArgsWithin : Nat → Read (List Term)
  | 0 => fail .unexpectedEnd
  | n + 1 => do
    skipBlanks
    if (← peek?) = some ')' then return []
    let t ← readTermWithin n
    return t :: (← readArgsWithin n)
/-- Reads the bindings of a `let` up to a closing parenthesis. -/
def readBindingsWithin : Nat → Read (List (String × Term))
  | 0 => fail .unexpectedEnd
  | n + 1 => do
    skipBlanks
    if (← peek?) = some ')' then return []
    expect '('
    let name ← readSymbol
    let value ← readTermWithin n
    expect ')'
    return (name, value) :: (← readBindingsWithin n)
/-- Reads the variables of a quantifier up to a closing parenthesis, and declares them. -/
def readBoundWithin : Nat → Read Unit
  | 0 => fail .unexpectedEnd
  | n + 1 => do
    skipBlanks
    if (← peek?) = some ')' then return
    expect '('
    let name ← readSymbol
    let sort ← readSort
    expect ')'
    setSort name (some sort)
    readBoundWithin n
end

/-- Reads a term. -/
def readTerm : Read Term := do readTermWithin ((← get).cursor.rest.length + 1)

end HornSaturation.Reader
