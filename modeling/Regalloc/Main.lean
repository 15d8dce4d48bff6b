import Regalloc.CommandLine

/-!
# The program

Reads the source file named on the command line and prints what was asked for.
-/

namespace Regalloc.CommandLine

def helpLines : List String :=
  ["Register allocator for a typed, block-structured intermediate language",
    "",
    "Usage: regalloc [OPTIONS] <SOURCE>",
    "",
    "Options:",
    "  -v, --verbose        Report allocation rounds and spills",
    "  -g <0|1>             Print the generated code (1) or only check it (0)",
    "  -O <LEVEL>           Optimization level",
    "  -s, --spill          Apply the spill request in SOURCE and print the function",
    "  -l, --liveness       Print live-in and live-out sets",
    "  -i, --interference   Print the interference graph",
    "      --registers <N>  Color with only the first N registers",
    "  -h, --help           Print help"]

def help : String :=
  String.join (helpLines.map (· ++ "\n"))

def unreadable : IO.Error → Unreadable
  | .noFileOrDirectory .. => .missing
  | .inappropriateType .. => .directory
  | error => .other (toString error)

def contents (path : String) : IO (Except Unreadable String) := do
  try
    return decode (← IO.FS.readBinFile path)
  catch error =>
    return .error (unreadable error)

end Regalloc.CommandLine

open Regalloc.CommandLine in
def main (args : List String) : IO UInt32 := do
  match parse args with
  | .error .help =>
    IO.print help
    return 0
  | .error .invalid =>
    IO.eprint help
    return 1
  | .ok options =>
    let finished := execute options (← contents options.source)
    for line in finished.stderr do
      IO.eprintln line
    IO.print finished.stdout
    return finished.exit
