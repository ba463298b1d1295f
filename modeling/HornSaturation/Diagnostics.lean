import HornSaturation.Inference.Candidate
import HornSaturation.Term.Equality
import HornSaturation.Term.Printer
import HornSaturation.Vocabulary.Relation

/-!
# Errors

Each error is a cause with the data that its message shows; the wording is in the `message`
functions. Faults in the input are told apart from breaches of the contract by a search strategy and
from internal faults, which point at inconsistent use of the library.
-/

namespace HornSaturation

/-- The answer of a satisfiability check. -/
inductive Answer where
  | sat
  | unsat
  | unknown
  deriving DecidableEq

/-- The name of an answer. -/
def Answer.render : Answer → String
  | .sat => "Sat"
  | .unsat => "Unsat"
  | .unknown => "Unknown"

/-- What can be wrong with the input text or with the clauses of a problem. -/
inductive InputFault where
  | expectedChar (expected found : Char) (offset : Nat)
  | expectedBeforeEnd (expected : Char)
  | expectedSymbol (offset : Nat)
  | unexpectedEnd
  | invalidNumeral (text : String)
  | unsupportedSort (name : String)
  | functionDeclared (name : String)
  | unknownQueryRelation (name : String)
  | unknownFunction (name : String)
  | argumentCount (name : String) (expected actual : Nat)
  | noArguments (name : String)
  | nonBooleanConstraint (constraint : Term)
  | reservedVariable (clause : Nat) (name : String)
  | applicationInConstraint (clause : Nat)
  deriving DecidableEq

/-- The wording of an input fault. -/
def InputFault.message : InputFault → String
  | .expectedChar e f offset =>
    "expected '" ++ e.toString ++ "', found '" ++ f.toString ++ "' at offset " ++ toString offset
  | .expectedBeforeEnd e => "expected '" ++ e.toString ++ "', found end of input"
  | .expectedSymbol offset => "expected symbol at offset " ++ toString offset
  | .unexpectedEnd => "unexpected end of input"
  | .invalidNumeral text => "invalid numeral: " ++ text
  | .unsupportedSort name => "unsupported sort: " ++ name
  | .functionDeclared name =>
    "uninterpreted function " ++ name ++ " is not supported (only Bool-valued relations)"
  | .unknownQueryRelation name => "unknown relation in query: " ++ name
  | .unknownFunction name => "unknown function: " ++ name
  | .argumentCount name expected actual =>
    "'" ++ name ++ "' requires exactly " ++ toString expected ++ " argument(s), got "
      ++ toString actual
  | .noArguments name => "'" ++ name ++ "' requires at least 1 argument"
  | .nonBooleanConstraint c => "non-Boolean clause constraint: " ++ c.render
  | .reservedVariable clause name =>
    "clause " ++ toString clause ++ ": variable " ++ name ++ " uses a reserved character"
  | .applicationInConstraint clause =>
    "clause " ++ toString clause ++ ": relation application inside a constraint"

/-- How a search strategy can break its contract with a candidate. -/
inductive ContractBreach where
  | nucleusOutOfRange
  | emptyBody
  | electronCount (expected : Nat)
  | inactiveElectron (id : UnitId)
  deriving DecidableEq

/-- The wording of a breach by a candidate. -/
def ContractBreach.message (c : Candidate) : ContractBreach → String
  | .nucleusOutOfRange => "nucleus index out of range: " ++ c.render
  | .emptyBody => "nucleus has an empty body: " ++ c.render
  | .electronCount n => "expected " ++ toString n ++ " electron(s): " ++ c.render
  | .inactiveElectron id =>
    "electron " ++ UnitId.render id ++ " is not an active unit of the body relation: " ++ c.render

/-- Inconsistent use of the library. -/
inductive Fault where
  | notStorable (rendered : String)
  | notRefutation (rendered : String)
  | noUnit (id : UnitId)
  | noProvenance (id : UnitId)
  | noClause (index : Nat)
  | noBodyPosition (clause position : Nat)
  | wrongElectron (clause position : Nat)
  | electronCount (clause positions given : Nat)
  | symbolsNotReady
  | manyRoots (root : UnitId) (found : List UnitId)
  | cyclicProvenance
  | notReproducible (clause : Nat) (answer : Answer)
  | noModelValue (name : String)
  deriving DecidableEq

/-- The wording of a fault. -/
def Fault.message : Fault → String
  | .notStorable rendered => "only positive relation units are stored, got " ++ rendered
  | .notRefutation rendered => "not a refutation: " ++ rendered
  | .noUnit id => "no stored unit " ++ UnitId.render id
  | .noProvenance id => "no provenance for " ++ UnitId.render id
  | .noClause index => "no clause " ++ toString index
  | .noBodyPosition clause position =>
    "clause " ++ toString clause ++ " has no body position " ++ toString position
  | .wrongElectron clause position =>
    "electron for position " ++ toString position ++ " of clause " ++ toString clause
      ++ " has the wrong relation"
  | .electronCount clause positions given =>
    "clause " ++ toString clause ++ " has " ++ toString positions ++ " body position(s) but "
      ++ toString given ++ " electron(s) were given"
  | .symbolsNotReady => "symbol factory used before initialization"
  | .manyRoots root found =>
    "provenance graph must have the single root " ++ UnitId.render root ++ ", found "
      ++ UnitId.renderList found
  | .cyclicProvenance => "provenance graph has a cycle"
  | .notReproducible clause answer =>
    "derivation step through clause " ++ toString clause ++ " is not reproducible ("
      ++ answer.render ++ ")"
  | .noModelValue name => "model has no value for " ++ name

/-- Everything that can go wrong between reading a problem and answering it. -/
inductive Error where
  | input (fault : InputFault)
  | undefinedRelation (id : RelationId)
  | arityMismatch (name : String) (expected actual : Nat)
  | notUnitClause (clause occurrences : Nat)
  | contract (candidate : Candidate) (breach : ContractBreach)
  | cancelled
  | internal (fault : Fault)
  deriving DecidableEq

/-- The full wording of an error. -/
def Error.message : Error → String
  | .input fault => "parse error: " ++ fault.message
  | .undefinedRelation id => "undefined relation: " ++ RelationId.render id
  | .arityMismatch name expected actual =>
    "arity mismatch for relation " ++ name ++ ": expected " ++ toString expected ++ ", got "
      ++ toString actual
  | .notUnitClause clause occurrences =>
    "clause " ++ toString clause ++ " is not a unit clause: body has " ++ toString occurrences
      ++ " relation occurrence(s)"
  | .contract candidate breach =>
    "search strategy contract violated: " ++ breach.message candidate
  | .cancelled => "solve cancelled"
  | .internal fault => "internal error: " ++ fault.message

end HornSaturation
