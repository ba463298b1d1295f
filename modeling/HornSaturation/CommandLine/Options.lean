import HornSaturation.Term.Arithmetic
import HornSaturation.Text.Decimal

/-!
# Command line options

Options may stand before and after the file. An option with a value takes it after an equals sign or
from the next argument; only the bounds of the domain take a next argument that begins with a
hyphen. After `--` every argument is a file. Arguments are taken in order, so what comes first
decides between an error and a request for help or for the version.
-/

namespace HornSaturation.CommandLine

/-- The form of the output. -/
inductive Format where
  | text
  | json
  deriving DecidableEq

/-- The values of the options; an option that has not been given has none. -/
structure Options where
  file : Option String := none
  min : Option Int := none
  max : Option Int := none
  maxIterations : Option Nat := none
  timeoutSecs : Option Nat := none
  trace : Bool := false
  format : Option Format := none
  verify : Bool := false
  deriving DecidableEq

/-- What a command line asks for. -/
inductive Request where
  | solve (file : String) (options : Options)
  | version
  | help
  /-- The command line is not understood. -/
  | usageError
  deriving DecidableEq

/-- A signed 64-bit integer: digits after an optional sign. -/
def signed? (text : String) : Option Int :=
  match text.toList with
  | '-' :: ds => ((Text.decimal? ds).map fun n => -(n : Int)).bind narrow
  | '+' :: ds => ((Text.decimal? ds).map fun n => (n : Int)).bind narrow
  | ds => ((Text.decimal? ds).map fun n => (n : Int)).bind narrow

/-- The format of a name. -/
def format? : String → Option Format
  | "text" => some .text
  | "json" => some .json
  | _ => none

/-- An option that takes a value. -/
inductive Setting where
  | min | max | maxIterations | timeoutSecs | format
  deriving DecidableEq

namespace Setting

/-- The option of a name. -/
def ofName? : String → Option Setting
  | "min" => some .min
  | "max" => some .max
  | "max-iterations" => some .maxIterations
  | "timeout-secs" => some .timeoutSecs
  | "format" => some .format
  | _ => none

/-- Whether the value may begin with a hyphen when it is the next argument. -/
def takesHyphen : Setting → Bool
  | .min | .max => true
  | _ => false

/-- Sets an option that has not been set, to a value of the right form. -/
def set? (o : Options) (value : String) : Setting → Option Options
  | .min => if o.min.isSome then none else (signed? value).map fun n => { o with min := n }
  | .max => if o.max.isSome then none else (signed? value).map fun n => { o with max := n }
  | .maxIterations =>
    if o.maxIterations.isSome then none
    else (Text.index? value.toList).map fun n => { o with maxIterations := n }
  | .timeoutSecs =>
    if o.timeoutSecs.isSome then none
    else (Text.index? value.toList).map fun n => { o with timeoutSecs := n }
  | .format =>
    if o.format.isSome then none else (format? value).map fun f => { o with format := f }

end Setting

/-- Takes the file, of which there is only one. -/
def setFile? (o : Options) (file : String) : Option Options :=
  if o.file.isSome || file.isEmpty then none else some { o with file }

/-- The request at the end of the arguments, which has to have a file. -/
def finish (o : Options) : Request :=
  match o.file with
  | some file => .solve file o
  | none => .usageError

/-- Takes arguments that all are files. -/
def parseFiles (o : Options) : List String → Request
  | [] => finish o
  | file :: rest =>
    match setFile? o file with
    | some o => parseFiles o rest
    | none => .usageError

/-- Takes an argument that begins with two hyphens and has no value for itself. -/
def flag? (o : Options) : String → Option Options
  | "trace" => if o.trace then none else some { o with trace := true }
  | "verify" => if o.verify then none else some { o with verify := true }
  | _ => none

/-- Splits a text at its first equals sign. -/
def splitValue (text : List Char) : String × Option String :=
  let name := String.ofList (text.takeWhile (· ≠ '='))
  match text.dropWhile (· ≠ '=') with
  | _ :: value => (name, some (String.ofList value))
  | [] => (name, none)

/-- Whether an argument can be the value of an option before it. -/
def isValueFor (s : Setting) (argument : String) : Bool :=
  s.takesHyphen ||
    match argument.toList with
    | '-' :: _ :: _ => false
    | _ => true

/-- Takes the arguments one after the other. -/
def parse (o : Options) : List String → Request
  | [] => finish o
  | argument :: rest =>
    match argument.toList with
    | ['-', '-'] => parseFiles o rest
    | '-' :: '-' :: long =>
      match splitValue long with
      | (name, some value) =>
        match (Setting.ofName? name).bind (Setting.set? o value) with
        | some o => parse o rest
        | none => .usageError
      | ("help", none) => .help
      | ("version", none) => .version
      | (name, none) =>
        match Setting.ofName? name with
        | some s =>
          match rest with
          | value :: rest =>
            if isValueFor s value then
              match s.set? o value with
              | some o => parse o rest
              | none => .usageError
            else .usageError
          | [] => .usageError
        | none =>
          match flag? o name with
          | some o => parse o rest
          | none => .usageError
    | '-' :: 'h' :: _ => .help
    | '-' :: 'V' :: _ => .version
    | '-' :: _ :: _ => .usageError
    | _ =>
      match setFile? o argument with
      | some o => parse o rest
      | none => .usageError

/-- What a command line asks for. -/
def Request.ofArguments (arguments : List String) : Request := parse {} arguments

end HornSaturation.CommandLine
