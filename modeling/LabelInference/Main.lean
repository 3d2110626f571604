import LabelInference.CommandLine.Response

namespace LabelInference.CommandLine

def readFile? (path : String) : IO (Option String) := do
  try
    return some (← IO.FS.readFile path)
  catch _ =>
    return none

def refusal : IO.Error → WriteError
  | .alreadyExists _ code reason | .otherError code reason | .resourceBusy code reason
  | .resourceVanished code reason | .unsupportedOperation code reason | .hardwareFault code reason
  | .unsatisfiedConstraints code reason | .illegalOperation code reason
  | .protocolError code reason | .timeExpired code reason | .interrupted _ code reason
  | .noFileOrDirectory _ code reason | .invalidArgument _ code reason
  | .permissionDenied _ code reason | .resourceExhausted _ code reason
  | .inappropriateType _ code reason | .noSuchThing _ code reason => .refused reason code.toNat
  | .unexpectedEof => .refused "unexpected end of file" 0
  | .userError reason => .refused reason 0

def writeFile (path contents : String) : IO (Option WriteError) := do
  match ← (IO.FS.Handle.mk path .write).toBaseIO with
  | .error _ => return some .notCreated
  | .ok file =>
    try
      file.putStr contents
      file.flush
      return none
    catch e =>
      return some (refusal e)

def report (r : Response) : IO UInt32 := do
  IO.print r.output
  if let some message := r.error then
    IO.eprintln ("Error: " ++ message)
  return r.exitCode.toUInt32

end LabelInference.CommandLine

open LabelInference.CommandLine in
def main (args : List String) : IO UInt32 := do
  match request? args with
  | none =>
    IO.eprintln "error: the arguments are not understood"
    return 2
  | some request =>
    let contents ← match request.problem? with
      | some path => readFile? path
      | none => pure none
    let p := plan request contents
    let failure ← match p.file with
      | some (path, text) => writeFile path text
      | none => pure none
    report (p.conclude failure)
