import QueryPrep.CommandLine.Invocation
import QueryPrep.Inline.Envelope
import QueryPrep.Inline.Inliner
import QueryPrep.Text.ControlSequence

/-!
# Running the program

An invocation reads files of the current directory, does its work and then writes: the result to
a file or to the standard output, messages and events to the two streams. What fails in the work
fails before the first file is written. The streams lead to no terminal, so all but the events
comes without control sequences.
-/

namespace QueryPrep.CommandLine

open QueryPrep.Files QueryPrep.Inline QueryPrep.Relay QueryPrep.Source QueryPrep.Text

/-- What the program knows about the place that it is called in. -/
structure Surroundings where
  /-- The current directory. -/
  directory : Path
  /-- What compilations find. -/
  host : Host

/-- What the program has left behind so far. -/
structure Console where
  tree : Tree
  stdout : String
  stderr : String
  calls : List ToolCall

/-- A failure that the program does not handle. -/
inductive Crash
  | file (error : FileError)
  | shell (error : ShellError)
  | mishap (mishap : Mishap)
deriving DecidableEq

/-- The message of a failure. -/
def Crash.message : Crash → String
  | .file error => error.message
  | .shell error => error.message
  | .mishap cause => cause.message

/-- Why the program ends before its work is done. -/
inductive Stop
  /-- An error that is reported with a message. -/
  | failure (message : String)
  /-- An error that has been reported already. -/
  | reported
  /-- A failure that nobody has foreseen. -/
  | crash (crash : Crash)
deriving DecidableEq

/-- Something that the program does. -/
abbrev Action := EStateM Stop Console

/-- Write a line to the standard output. -/
def say (line : String) : Action Unit :=
  modify fun console => { console with stdout := console.stdout ++ plainText line ++ "\n" }

/-- The console with a line more on the error output. -/
def Console.withError (console : Console) (line : String) : Console :=
  { console with stderr := console.stderr ++ line ++ "\n" }

/-- Write a line to the error output. -/
def complain (line : String) : Action Unit :=
  modify (·.withError (plainText line))

/-- Write a line to the standard output if more than the essentials is wanted. -/
def sayIf (verbose : Bool) (line : String) : Action Unit :=
  if verbose then say line else pure ()

/-- The line that an event leaves on the error output; most events leave none unless asked for. -/
def eventLine? (verbose : Bool) (event : Event) : Option String :=
  if verbose then some event.line
  else if event.severity = .warning then some event.text
  else none

/-- Report events, with whatever is in them. -/
def report (verbose : Bool) (events : List Event) : Action Unit :=
  (events.filterMap (eventLine? verbose)).forM fun line => modify (·.withError line)

/-- The text of the input file that a text names. -/
def inputText (surroundings : Surroundings) (tree : Tree) (name : String) : Except Crash String :=
  match tree.read (stepsFrom surroundings.directory name) with
  | .error error => .error (.file error)
  | .ok bytes =>
    match readText? bytes with
    | some text => .ok text
    | none => .error (.mishap .undecodable)

/-- Read an input file. -/
def readInput (surroundings : Surroundings) (name : String) : Action String := fun console =>
  match inputText surroundings console.tree name with
  | .ok text => .ok text console
  | .error crash => .error (.crash crash) console

/-- Change the files of the current directory. -/
def change {α : Type} (action : Change α) : Action α := fun console =>
  match action console.tree with
  | .ok value tree => .ok value { console with tree }
  | .error error tree => .error (.crash (.file error)) { console with tree }

/-- Write files into a directory, naming each if more than the essentials is wanted. -/
def writeFiles (verbose : Bool) (directory : Path) : List (String × String) → Action Unit
  | [] => pure ()
  | file :: rest => do
    change (Change.writeFile (directory ++ [file.1]) file.2)
    sayIf verbose ("  " ++ file.1)
    writeFiles verbose directory rest

/-- Hand over a result: to the output file, or to the standard output if there is none. -/
def deliver (surroundings : Surroundings) (verbose : Bool) (output : Option String)
    (result : String) : Action Unit :=
  match output with
  | none => say result
  | some text =>
    if text.isEmpty then say result
    else do
      let path := normalize (stepsFrom surroundings.directory text)
      change (Change.ensureDirectories path.dropLast)
      change (Change.writeFile path (result ++ "\n"))
      sayIf verbose ("Wrote " ++ pathText path)

/-- Inline a document. -/
def runInline (surroundings : Surroundings) (operations : String) (output : Option String)
    (asJson strict verbose : Bool) : Action Unit := do
  let text ← readInput surroundings operations
  let strictness := if strict then .strict else .lenient
  report verbose (textEvents strictness text)
  match inlineText strictness text with
  | .ok result =>
    deliver surroundings verbose output
      (if asJson then (Envelope.ofResult result).toJson else result)
  | .error error =>
    if asJson then
      say (Envelope.ofError error.message).toJson
      throw .reported
    else
      throw (.failure error.message)

/-- Split operations into source files. -/
def runSplit (surroundings : Surroundings) (operations output : String) (language : Language)
    (verbose : Bool) : Action Unit := do
  let directory := normalize (stepsFrom surroundings.directory output)
  let text ← readInput surroundings operations
  report verbose (splitEvents text)
  match splitDefinitions text with
  | .error error => throw (.failure error.message)
  | .ok definitions =>
    sayIf verbose ("Found " ++ toString definitions.length ++ " definition(s)")
    let files := groupDefinitions language.extension definitions
    change (Change.ensureDirectories directory)
    writeFiles verbose directory (files.map fun file => (file.filename, file.content))
    say ("Done! Wrote " ++ toString files.length ++ " file(s) to " ++ pathText directory)

/-- What becomes of an error of a compilation. -/
def stopCompiling : CompileError → Action Unit
  | .workspace (.split error) => throw (.failure error.message)
  | .workspace (.file error) => throw (.crash (.file error))
  | .tool error => do
    unless error.stderr.isEmpty do
      complain error.stderr
    throw (.failure error.message)
  | .mishap mishap => throw (.crash (.mishap mishap))

/-- A compilation of its own on the files that there are, with the session that it leaves. -/
def runCompiler (surroundings : Surroundings) (compiler : Compiler) (tree : Tree)
    (schema operations : String) : Except CompileError CompileResult × Session :=
  match compiler.compile surroundings.host schema operations (.start tree) with
  | .ok result session => (.ok result, session)
  | .error error session => (.error error, session)

/-- Compile operations and collect the artifacts. -/
def runCompile (surroundings : Surroundings)
    (schema operations output command : String) (language : Language) (verbose : Bool) :
    Action Unit := do
  let directory := normalize (stepsFrom surroundings.directory output)
  match Compiler.ofCommandLine command (.forLanguage language) none with
  | .error error => throw (.crash (.shell error))
  | .ok compiler =>
    say "Compiling operations..."
    let schema ← readInput surroundings schema
    let operations ← readInput surroundings operations
    let (outcome, session) :=
      runCompiler surroundings compiler (← get).tree schema operations
    modify fun console =>
      { console with tree := session.tree, calls := console.calls ++ session.calls }
    report verbose session.events
    match outcome with
    | .error error => stopCompiling error
    | .ok result =>
      unless result.stdout.isEmpty do
        sayIf verbose result.stdout
      change (Change.ensureDirectories directory)
      writeFiles verbose directory result.artifacts
      say ("Done! Generated " ++ toString result.artifacts.length ++ " artifact(s) in " ++
        pathText directory)

/-- Do what an invocation asks for. -/
def perform (surroundings : Surroundings) : Invocation → Action Unit
  | .inline operations output asJson strict verbose =>
    runInline surroundings operations output asJson strict verbose
  | .split operations output language verbose =>
    runSplit surroundings operations output language verbose
  | .compile schema operations output command language verbose =>
    runCompile surroundings schema operations output command language verbose

/-- How a call of the program ended. -/
inductive Outcome
  /-- The arguments are no proper invocation. -/
  | usage
  /-- The program has run to its end, or to an error. -/
  | finished (exitCode : Nat) (crash : Option Crash) (console : Console)

/-- The end of the program after an action. -/
def conclude : EStateM.Result Stop Console Unit → Outcome
  | .ok () console => .finished 0 none console
  | .error (.failure message) console =>
    .finished 1 none (console.withError (plainText ("Error: " ++ message)))
  | .error .reported console => .finished 1 none console
  | .error (.crash crash) console => .finished 1 (some crash) console

/-- Call the program, given all files that there are. -/
def run (surroundings : Surroundings) (tree : Tree) (arguments : List String) : Outcome :=
  match Invocation.read tree surroundings.directory arguments with
  | none => .usage
  | some invocation => conclude (perform surroundings invocation ⟨tree, "", "", []⟩)

end QueryPrep.CommandLine
