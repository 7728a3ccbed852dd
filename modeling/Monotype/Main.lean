import Monotype.Host.Standard

/-!
# The command line on a machine

Reads every file that a run may ask for, runs, and writes what the run wrote.  The run itself is
`Command.run`.
-/

namespace Monotype

namespace Command

/-- Whether an error code of the machine is this one; some come with their sign turned. -/
def isCode (number code : UInt32) : Bool := code = number || code = 0 - number

def readBytes (path : String) : IO (Except ReadFault (List UInt8)) := do
  try
    return .ok (← IO.FS.readBinFile path).toList
  catch e =>
    match e with
    | .noFileOrDirectory .. => return .error .noEntry
    | .inappropriateType _ code _ =>
        return .error (if isCode 21 code then .isDirectory else .notDirectory)
    | .invalidArgument _ code _ =>
        if isCode 36 code then return .error .nameTooLong
        else throw e
    | e => throw e

def runOnMachine (argv : List String) : IO Run := do
  let cwd := (← IO.currentDir).toString
  let readings ← (pathsAskedFor cwd argv).mapM fun path => return (path, ← readBytes path)
  return run .standard (Disk.ofReadings cwd readings) argv

end Command

end Monotype

/-- Run the program and end with its exit status; a run that breaks off has status 1. -/
def main (argv : List String) : IO UInt32 := do
  let r ← Monotype.Command.runOnMachine argv
  (← IO.getStdout).putStr r.out
  (← IO.getStderr).putStr r.err
  match r.ending with
  | .status code => return code.toUInt32
  | .broken cause =>
      (← IO.getStderr).putStr (cause.message ++ "\n")
      return 1
