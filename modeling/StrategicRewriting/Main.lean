import StrategicRewriting.Format.Program

/-!
The formatter as a program. Events up to the level named by the environment
variable `LOG` go to the standard error.
-/
open StrategicRewriting

/-- The level of a name; by default only errors are shown. -/
def levelNamed : Option String → Level
  | some "warn" => .warn
  | some "info" => .info
  | some "debug" => .debug
  | some "trace" => .trace
  | _ => .error

/-- The contents of a file that can be read. -/
def contentsOf (name : String) : IO (Option (String × ByteArray)) := do
  try
    return some (name, ← IO.FS.readBinFile name)
  catch _ => return none

def main (args : List String) : IO UInt32 := do
  let wanted := args.filter (· != "-")
  let contents := (← wanted.mapM contentsOf).filterMap id
  let input ← if args.contains "-" then (← IO.getStdin).readBinToEnd else pure .empty
  let report := Format.run args (contents.lookup ·) input
  let limit := levelNamed (← IO.getEnv "LOG")
  let err ← IO.getStderr
  for e in report.events do
    if e.level.within limit then
      err.putStrLn ("[" ++ e.level.name ++ "] " ++ e.message)
  let out ← IO.getStdout
  out.putStr report.output
  out.flush
  match report.ending with
  | .failed reason => err.putStrLn ("Error: " ++ reason.text)
  | .misused => err.putStr Format.helpText
  | _ => pure ()
  return report.ending.code.toUInt32
