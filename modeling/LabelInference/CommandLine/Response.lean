import LabelInference.CommandLine.Arguments
import LabelInference.ConstraintSystem.Dot
import LabelInference.Problem.File
import LabelInference.Problem.Report

namespace LabelInference.CommandLine

structure Response where
  exitCode : UInt8
  output : String
  error : Option String

def Response.success (output : String) : Response := ⟨0, output, none⟩

def Response.failure (message : String) : Response := ⟨1, "", some message⟩

-- Why a file was not written: it could not be created, or it did not take the text.
inductive WriteError where
  | notCreated
  | refused (reason : String) (code : Nat)

def WriteError.message (path : String) : WriteError → String
  | .notCreated => "failed to create " ++ path
  | .refused reason code => reason ++ " (os error " ++ toString code ++ ")"

-- A file is written before anything is put out.
structure Plan where
  file : Option (String × String)
  response : Response

-- The response once the file is dealt with. If it was not written, nothing else is put out.
def Plan.conclude (p : Plan) (failure : Option WriteError) : Response :=
  match p.file, failure with
  | some (path, _), some e => .failure (e.message path)
  | _, _ => p.response

def versionText (command : Option String) : String :=
  "labelflow" ++ (command.map ("-" ++ ·)).getD "" ++ " 0.4.0\n"

def helpText : String :=
  "Infer security labels from flows-to constraints\n"

def Request.problem? : Request → Option String
  | .solve path _ _ _ | .draw path _ => some path
  | .version _ | .help => none

def load (path : String) (contents : Option String) :
    Except String (LabelSystem Principal String Violation) := do
  match contents with
  | none => throw ("failed to read problem file " ++ path)
  | some document =>
    let problem ← (Problem.parse path document).mapError FileError.message
    problem.system.mapError IllegalConstraint.message

def unsatisfied (format : OutputFormat) (vs : List Violation) : Response where
  exitCode := 1
  output :=
    match format with
    | .text => Report.violationsText vs
    | .json => (Report.violationsJson vs).print ++ "\n"
  error := some (toString vs.length ++ " constraint(s) cannot be satisfied")

def satisfied (format : OutputFormat) (s : LabelSolution Principal String) : Response :=
  .success <|
    match format with
    | .text => Report.solutionText s
    | .json => (Report.solutionJson s).print ++ "\n"

def solved (system : LabelSystem Principal String Violation) (format : OutputFormat)
    (allViolations : Bool) : Response :=
  match system.labelSolution with
  | .ok s => satisfied format s
  | .error v => unsatisfied format (if allViolations then system.violations else [v])

-- `contents` is what the problem file holds, if it can be read.
def plan (request : Request) (contents : Option String) : Plan :=
  match request with
  | .version command => ⟨none, .success (versionText command)⟩
  | .help => ⟨none, .success helpText⟩
  | .solve path format allViolations drawing =>
    match load path contents with
    | .error message => ⟨none, .failure message⟩
    | .ok system => ⟨drawing.map (·, system.dot), solved system format allViolations⟩
  | .draw path output =>
    match load path contents, output with
    | .error message, _ => ⟨none, .failure message⟩
    | .ok system, none => ⟨none, .success system.dot⟩
    | .ok system, some target => ⟨some (target, system.dot), .success ""⟩

end LabelInference.CommandLine
