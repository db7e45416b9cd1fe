import QueryPrep.Relay.Tool
import QueryPrep.Relay.Workspace
import QueryPrep.Text.Decimal
import QueryPrep.Text.ShellWords

/-!
# Running the compiler

The compiler is an external tool. It runs in a workspace of its own, a directory that exists only
while it is needed: it is removed afterwards, whatever has happened. The artifacts are read before
that, from wherever the configuration has told the tool to put them.
-/

namespace QueryPrep.Relay

open QueryPrep.Files QueryPrep.Source QueryPrep.Text

/-- One start of a tool, with all files as the tool found them. -/
structure ToolCall where
  command : List String
  timeout : Option Decimal
  tree : Tree

/-- A reason why a tool has not done its work. -/
inductive ToolError
  | notFound (program : String)
  | timedOut (limit : String)
  | exited (code : Int) (stdout stderr : String)
deriving DecidableEq

/-- The message of an error. -/
def ToolError.message : ToolError → String
  | .notFound program => "Relay compiler not found: " ++ program
  | .timedOut limit => "Relay compiler timed out after " ++ limit ++ " seconds"
  | .exited code _ _ => "Relay compiler exited with code " ++ toString code

/-- What the tool has written to its standard output before the error. -/
def ToolError.stdout : ToolError → String
  | .exited _ stdout _ => stdout
  | _ => ""

/-- What the tool has written to its error output before the error. -/
def ToolError.stderr : ToolError → String
  | .exited _ _ stderr => stderr
  | _ => ""

/-- A reason why a compilation has no result. -/
inductive CompileError
  | workspace (error : WorkspaceError)
  | tool (error : ToolError)
  | mishap (mishap : Mishap)
deriving DecidableEq

/-- What a compilation yields: the output of the tool, and the artifacts by name. -/
structure CompileResult where
  stdout : String
  stderr : String
  artifacts : List (String × String)
deriving DecidableEq

/-- How compilations are run. -/
structure Compiler where
  command : List String
  config : Config
  timeout : Option Decimal

/-- The command line that is used unless another is given. -/
def defaultCommand : String := "npx relay-compiler"

/-- A compiler whose command is given as a command line. -/
def Compiler.ofCommandLine (commandLine : String) (config : Config) (timeout : Option Decimal) :
    Except ShellError Compiler := do
  return ⟨← ShellWords.split commandLine, config, timeout⟩

/-- What compilations need from the system. -/
structure Host where
  runner : Runner
  medium : Medium
  /-- The place that is chosen for the workspace. -/
  place : Path
  canonical : Canonical place
  /-- How events name the workspace. -/
  label : String

/-- What a compilation does to the world, apart from its result. -/
structure Session where
  tree : Tree
  /-- The starts of the tool so far. -/
  calls : List ToolCall
  events : List Event

/-- Nothing has happened yet. -/
def Session.start (tree : Tree) : Session := ⟨tree, [], []⟩

/-- Something that is done in the course of a compilation. -/
abbrev Compilation := EStateM CompileError Session

namespace Compiler

/-- A file of a directory, read as text. -/
def readArtifact (file : String × ByteArray) : Except Mishap (String × String) :=
  match readText? file.2 with
  | some content => .ok (file.1, content)
  | none => .error .undecodable

/-- The plain files directly in a directory, ordered by name; none if it is no directory. -/
def collectArtifacts (steps : List String) (tree : Tree) :
    Except Mishap (List (String × String)) :=
  match tree.walk [] steps with
  | .error _ => .ok []
  | .ok path =>
    if tree.find? path = some .directory then (tree.filesIn path).mapM readArtifact
    else .ok []

/-- The text of the time limit; without a limit no tool runs out of time. -/
def limitText (compiler : Compiler) : String :=
  (compiler.timeout.map Decimal.text).getD "None"

/-- What the ending of a command means: the output of the tool, or an error. -/
def judge (compiler : Compiler) : Ending → Except CompileError (String × String)
  | .notFound program => .error (.tool (.notFound program))
  | .timedOut => .error (.tool (.timedOut compiler.limitText))
  | .broken mishap => .error (.mishap mishap)
  | .completed code stdout stderr =>
    if code = 0 then .ok (stdout, stderr) else .error (.tool (.exited code stdout stderr))

/-- Make the directory of the workspace. -/
def makePlace (host : Host) : Compilation Unit := fun session =>
  match (do host.medium.allow host.place; Change.makeDirectory host.place : Change Unit)
      session.tree with
  | .ok () tree => .ok () { session with tree }
  | .error error tree => .error (.workspace (.file error)) { session with tree }

/-- Prepare the workspace. -/
def prepare (compiler : Compiler) (host : Host) (schema operations : String) :
    Compilation Unit := fun session =>
  let outcome := prepareWorkspace compiler.config host.medium host.place schema operations
    session.tree
  let events := session.events ++ prepareEvents host.label operations outcome
  match outcome with
  | .ok _ tree => .ok () { session with tree, events }
  | .error error tree => .error (.workspace error) { session with tree, events }

/-- Start the tool in the workspace and wait for it. -/
def runTool (compiler : Compiler) (host : Host) : Compilation (String × String) := fun session =>
  let (ending, tree) := host.runner compiler.command host.place session.tree
  let session : Session :=
    { tree
      calls := session.calls ++ [⟨compiler.command, compiler.timeout, session.tree⟩]
      events := session.events ++ [.toolStarted (ShellWords.join compiler.command) host.label] }
  match compiler.judge ending with
  | .ok output => .ok output session
  | .error error => .error error session

/-- Collect the artifacts that the tool has left. -/
def collect (compiler : Compiler) (host : Host) : Compilation (List (String × String)) :=
  fun session =>
    match collectArtifacts (stepsFrom host.place compiler.config.artifactDirectory)
        session.tree with
    | .ok artifacts => .ok artifacts session
    | .error mishap => .error (.mishap mishap) session

/-- Everything that happens while there is a workspace. -/
def compileInside (compiler : Compiler) (host : Host) (schema operations : String) :
    Compilation CompileResult := do
  compiler.prepare host schema operations
  let (stdout, stderr) ← compiler.runTool host
  let artifacts ← compiler.collect host
  return ⟨stdout, stderr, artifacts⟩

/-- The session without its workspace. -/
def discard (host : Host) (session : Session) : Session :=
  { session with tree := session.tree.removeDirectory host.place }

/--
Compile operations against a schema in a workspace of their own. The workspace is removed in the
end, whether there is a result or an error.
-/
def compile (compiler : Compiler) (host : Host) (schema operations : String) :
    Compilation CompileResult := do
  makePlace host
  fun session =>
    match compiler.compileInside host schema operations session with
    | .ok result session => .ok result (discard host session)
    | .error error session => .error error (discard host session)

end Compiler

end QueryPrep.Relay
