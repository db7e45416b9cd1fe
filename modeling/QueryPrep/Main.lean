import QueryPrep.CommandLine.Run

/-!
# The program

Loads the files and directories that the arguments mention, calls the program on them and carries
out the changes that it has made.
-/

namespace QueryPrep

open QueryPrep.CommandLine QueryPrep.Files QueryPrep.Relay

/--
No other program is started from here, so compilations find that their tool is missing. Whoever
links the library can pass a tool of their own.
-/
def noTool : Tool := fun _ _ tree => (.missing, tree)

/-- The directory that workspaces are made in. -/
def temporary : Path := ["tmp"]

/-- What compilations find. The workspace is never carried out, since nothing of it remains. -/
def host : Host where
  runner := noTool.runner
  medium := .unlimited
  place := temporary ++ ["relay-compiler"]
  canonical := by decide
  label := pathText (temporary ++ ["relay-compiler"])

/-- Add to a tree what lies on the way from a path, as far as there is anything. -/
def load (tree : Tree) (here : Path) : List String → IO Tree
  | [] => return tree
  | step :: rest => do
    let path := follow here step
    let place := (← IO.currentDir) / pathText path
    if ← place.isDir then
      load (tree.put path .directory) path rest
    else if ← place.pathExists then
      return tree.put path (.file (← IO.FS.readBinFile place))
    else
      return tree

/-- Carry out a change. -/
def carryOut (entry : Path × Node) : IO Unit := do
  match entry with
  | (path, .directory) => IO.FS.createDirAll (pathText path)
  | (path, .file bytes) => IO.FS.writeBinFile (pathText path) bytes

end QueryPrep

open QueryPrep QueryPrep.CommandLine QueryPrep.Files

def main (arguments : List String) : IO UInt32 := do
  let directory := steps (← IO.currentDir).toString
  let mut before := Tree.empty.put temporary .directory
  for text in Invocation.mentioned arguments do
    before ← load before [] (stepsFrom directory text)
  match run ⟨directory, host⟩ before arguments with
  | .usage =>
    IO.eprintln "usage: inline | split | compile, with an input file and options"
    return 2
  | .finished exitCode crash console =>
    for entry in (Tree.changesSince before console.tree).entries do
      carryOut entry
    IO.print console.stdout
    IO.eprint console.stderr
    if let some crash := crash then IO.eprintln crash.message
    return exitCode.toUInt32
