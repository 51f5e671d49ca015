/-
# The program

Reads the files that the command line names, prints the result and leaves with
its exit code. It starts no other program, so no answer-set solver is found.

Key definitions: `main`.
-/
import LeastGlut.Cli.Run

open LeastGlut

/-- The bytes of every path that can be read. -/
def readFiles (paths : List String) : IO (List (String × List UInt8)) :=
  paths.filterMapM fun (path : String) => do
    try
      let bytes ← IO.FS.readBinFile path
      return some (path, bytes.toList)
    catch _ => return none

def main (words : List String) : IO UInt32 := do
  let paths := match Cli.parse words with
    | .ok command => command.paths
    | .error _ => []
  let files ← readFiles paths
  let world : Cli.World := ⟨fun path => files.lookup path, fun _ => false, fun _ _ => .notFound⟩
  let result := Cli.run world words
  IO.print result.output
  return result.exit.toUInt32
