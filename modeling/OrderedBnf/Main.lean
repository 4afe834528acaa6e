import OrderedBnf.CommandLine

/-! The program: reads the files named on its command line and prints what a run over them leaves
behind. -/
namespace OrderedBnf.CommandLine

private def readFiles (paths : List String) : IO Folder :=
  paths.filterMapM fun (path : String) => do
    match ← (IO.FS.readBinFile path).toBaseIO with
    | .ok bytes => return some (Files.nameOf path, bytes)
    | .error _ => return none

private def print (transcript : Transcript) : IO Unit := do
  transcript.out.forM fun line => IO.println line
  transcript.warnings.forM fun line => IO.eprintln line
  transcript.err.forM fun line => IO.eprintln line

def usage : String :=
  "usage: [-r RULE] [-c] [--lint] [--rules] [--outline] [-v] GRAMMAR [SOURCE ...]"

/-- The exit status is 2 where the command line or a file cannot be read. -/
def program (words : List String) : IO UInt32 := do
  match Options.read {} words with
  | none => IO.eprintln usage; return 2
  | some options =>
    if options.paths.isEmpty then IO.eprintln usage; return 2
    let (result, transcript) := runStored .utf8 (← readFiles options.paths) options
    print transcript
    match result with
    | .ok status => return status.toUInt32
    | .error (.unreadable path error) => IO.eprintln (path ++ ": " ++ error.message); return 2
    | .error (.aborted _) => return 2

end OrderedBnf.CommandLine

def main (words : List String) : IO UInt32 := OrderedBnf.CommandLine.program words
