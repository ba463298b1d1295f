import HornSaturation.CommandLine.Files
import HornSaturation.CommandLine.Options
import HornSaturation.Run.OfProblem

/-!
# Responses to the command line

A response is what is written to the two output streams and the exit code: zero for an answer, one
for a failure and two for a command line that is not understood. A failure is written with its cause
below it, indented.
-/

namespace HornSaturation.CommandLine

/-- What the program leaves behind. -/
structure Response where
  exit : Nat
  stdout : String := ""
  stderr : String := ""
  deriving DecidableEq

/-- A failure, with its cause if it is not the cause itself. -/
structure Failure where
  message : String
  cause : Option String := none
  deriving DecidableEq

/-- A text with its lines indented. -/
def indent (text : String) : String :=
  "    " ++ String.ofList (text.toList.flatMap fun c =>
    if c = '\n' then ['\n', ' ', ' ', ' ', ' '] else [c])

/-- The text of a failure. -/
def Failure.render (f : Failure) : String :=
  let cause := match f.cause with
    | some cause => "\n\nCaused by:\n" ++ indent cause
    | none => ""
  "Error: " ++ f.message ++ cause ++ "\n"

/-- The answer in the requested format. -/
def renderAnswer (format : Format) (s : Solved) : String :=
  let relations := s.normalized.relations
  match format, s.outcome with
  | .text, .sat _ => "sat\n" ++ s.render
  | .text, .unsat _ => "unsat\n" ++ s.render
  | .text, .unknown => "unknown\n"
  | .json, .sat solution =>
    (JsonValue.ofFields
      [("result", .string "sat"), ("model", solution.toJson relations)]).render ++ "\n"
  | .json, .unsat refutation =>
    (JsonValue.ofFields
      [("result", .string "unsat"), ("counterexample", refutation.toJson relations)]).render ++ "\n"
  | .json, .unknown => (JsonValue.ofFields [("result", .string "unknown")]).render ++ "\n"

/-- Solves a problem from its text and gives the answer, checked if that is asked for. -/
def Options.answer (o : Options) (text : String) : Except Failure String := do
  let problem ← match Problem.read text with
    | .ok p => pure p
    | .error e => throw ⟨"failed to parse input", e.message⟩
  let oracle := Oracle.ofBounds (o.min.getD (-8)) (o.max.getD 8) Oracle.defaultCap
  let configuration : Configuration :=
    { limit := o.maxIterations, timeout := o.timeoutSecs.map (1000 * ·), trace := o.trace }
  let failure (e : Error) : Failure := ⟨e.message, none⟩
  let solved ← (problem.solve oracle configuration).mapError failure
  if o.verify then
    if !(← solved.check.mapError failure) then throw ⟨"answer failed verification", none⟩
  return renderAnswer (o.format.getD .text) solved

/-- The response to a request to solve, where reading the file has given its text or a fault. -/
def Options.respond (o : Options) (file : String) (contents : Except FileFault String) : Response :=
  let answer := match contents with
    | .ok text => o.answer text
    | .error fault => .error ⟨"failed to read " ++ file, fault.message⟩
  match answer with
  | .ok stdout => { exit := 0, stdout }
  | .error f => { exit := 1, stderr := f.render }

/-- The response to a request for the version. -/
def versionResponse : Response := { exit := 0, stdout := "hyres 0.1.0\n" }

/-- The response to a request for help. -/
def helpResponse : Response := { exit := 0 }

/-- The response to a command line that is not understood. -/
def usageResponse : Response := { exit := 2 }

end HornSaturation.CommandLine
