import FlowTyping.Command.Run

/-!
# The command line program

Files are read from the disk, and run identifiers are random. All else is `Command.run`.
-/

namespace FlowTyping

/-- What an error of the system says of a file. -/
def ReadError.ofSystem : IO.Error → ReadError
  | .noFileOrDirectory .. => .missing
  | .noSuchThing .. => .missing
  | .inappropriateType .. => .notDirectory
  | _ => .directory

instance : Disk IO where
  read path := do
    try
      let bytes ← IO.FS.readBinFile path
      return .ok (Text.shown bytes.toList)
    catch e => return .error (.ofSystem e)
  present path := do
    try
      let _ ← IO.FS.realPath path
      return true
    catch _ => return false
  here := do return toString (← IO.currentDir)

/-- The variables of the environment that settings come from. -/
def settingsEnv : IO (List (String × String)) :=
  ["NARROW_MAX_NODES", "NARROW_WORKERS", "NARROW_STRICT"].filterMapM fun name => do
    return (← IO.getEnv name).map fun value => (name, value)

/-- Random bytes. -/
def randomBytes (count : Nat) : IO (List UInt8) :=
  (List.range count).mapM fun _ => do return UInt8.ofNat (← IO.rand 0 255)

end FlowTyping

open FlowTyping

/-- Runs the command line and gives the exit code. -/
def main (args : List String) : IO UInt32 := do
  let seed ← randomBytes 16
  let runId (n : Nat) : String := RunId.ofBytes (seed.map (· + UInt8.ofNat n))
  let console ← (Command.run (← settingsEnv) runId args : IO Command.Console)
  (← IO.getStdout).write console.out.bytes
  match console.error with
  | some e => (← IO.getStderr).write (e ++ ("\n" : Text)).bytes
  | none => pure ()
  return UInt32.ofNat console.exit
