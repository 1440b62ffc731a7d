import MethodTrace.Session

/-!
# The program

Files, the clock and the console; everything else is in `Session`.
-/

namespace MethodTrace.Session

/-- The system's number of an error; some calls give its negative. -/
def errorNumber (code : UInt32) : UInt32 := min code (0 - code)

def faultOf : IO.Error → FileFault
  | .noFileOrDirectory .. => .missing
  | .permissionDenied .. => .denied
  | .inappropriateType _ code _ => if errorNumber code = 20 then .notDirectory else .directory
  | e@(.invalidArgument _ code _) =>
    if errorNumber code = 36 then .nameTooLong else .other (toString e)
  | e => .other (toString e)

/-- The number under which a trace lists this process. -/
def processNumber : Nat := 0

def printFailure (f : Failure) : IO UInt32 := do
  IO.eprintln ("error: " ++ f.message)
  return f.exitCode.toUInt32

/-- Writes the trace if one is wanted; whether that worked. -/
def writeTrace (o : Options) (f : Finished) : IO (Except Failure Unit) := do
  match trace o f with
  | none => return .ok ()
  | some (path, t) =>
    match ← (IO.FS.writeFile path (t.text processNumber)).toBaseIO with
    | .error e => return .error (.trace path (.file (faultOf e)))
    | .ok _ =>
      unless o.quiet do IO.println (traceReport path t)
      return .ok ()

/-- The content of the settings file, if the options name one. -/
def settingsContent (o : Options) : IO (Except FileFault ByteArray) := do
  match o.settingsPath with
  | none => return .error .missing
  | some path => return (← (IO.FS.readBinFile path).toBaseIO).mapError faultOf

def runOptions (o : Options) : IO UInt32 := do
  let content ← settingsContent o
  match prepare o fun _ => content with
  | .error f => printFailure f
  | .ok (s, w) =>
    let start ← IO.monoNanosNow
    let finished ← IO.lazyPure fun _ => run o s w
    let stop ← IO.monoNanosNow
    match finished with
    | .error f => printFailure f
    | .ok finished =>
      match ← writeTrace o finished with
      | .error f => printFailure f
      | .ok _ =>
        unless o.quiet do
          for line in report finished (duration (stop - start)) do IO.println line
        return 0

/-- Does what the arguments say; the result is the exit code. -/
def runArguments (args : List String) : IO UInt32 := do
  match CommandLine.parse args with
  | .ok o => runOptions o
  | .error .help =>
    IO.println CommandLine.helpText
    return 0
  | .error stop =>
    IO.eprintln ("error: " ++ stop.message)
    return 2

end MethodTrace.Session

def main (args : List String) : IO UInt32 := MethodTrace.Session.runArguments args
