import RowCode.CommandLine.Run

/-!
# The command
-/

namespace RowCode

def readFile (path : String) : IO (Option (List UInt8)) := do
  try
    let bytes ← IO.FS.readBinFile path
    pure (some bytes.data.toList)
  catch _ => pure none

def usage : String :=
  "Usage: rowcode [OPTIONS] <PROGRAM>\n" ++
    "  -f, --format <json|bincode>  -m, --materialize-all  -p, --prefix <PREFIX>\n" ++
    "  -n, --native  -c, --condition-only  -r, --row <ROW>  -d, --debug\n"

end RowCode

def main (args : List String) : IO UInt32 := do
  let path := ((RowCode.Options.ofArguments? args).map RowCode.Options.program).getD ""
  let bytes ← RowCode.readFile path
  match RowCode.Command.run (fun _ => bytes) args with
  | .printed output => do
    IO.print output
    pure 0
  | .failed report => do
    IO.eprint ("Error: " ++ report)
    pure 1
  | .misused => do
    IO.eprint RowCode.usage
    pure 2
