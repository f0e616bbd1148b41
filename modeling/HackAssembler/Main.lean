import HackAssembler.Command.Run

/-!
# The command line, on the files of the machine
-/

namespace HackAssembler

/-- a file that opens may still be a directory, or end in an error -/
def readSource (path : String) : IO (Except FileFault ByteArray) := do
  match ← (IO.FS.Handle.mk path .read).toBaseIO with
  | .error _ => return .error (.openFailed path)
  | .ok file =>
    match ← file.readBinToEnd.toBaseIO with
    | .error _ => return .error .readFailed
    | .ok bytes => return .ok bytes

def writeWords (path : String) (words : List String) : IO (Option FileFault) := do
  match ← (IO.FS.Handle.mk path .write).toBaseIO with
  | .error _ => return some (.createFailed path)
  | .ok file =>
    match ← (do file.write (wordLines words); file.flush : IO Unit).toBaseIO with
    | .error _ => return some (.writeFailed path)
    | .ok _ => return none

def finish (outcome : Outcome) : IO UInt32 := do
  IO.print outcome.output
  return outcome.exitCode

def assembleOnDisk (o : Options) : IO UInt32 := do
  match o.prepare (← readSource o.input) with
  | .error outcome => finish outcome
  | .ok job =>
    IO.print (renderRows job.opening)
    finish (job.close (← writeWords o.outputPath job.words))

end HackAssembler

open HackAssembler in
def main (arguments : List String) : IO UInt32 := do
  match options arguments with
  | .error outcome =>
    if outcome.exitCode = 2 then
      IO.eprint helpText
    finish outcome
  | .ok o => assembleOnDisk o
