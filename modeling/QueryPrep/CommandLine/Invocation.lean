import QueryPrep.CommandLine.Arguments
import QueryPrep.Files.Tree
import QueryPrep.Relay.Compiler

/-!
# Invocations

The three commands with their options. An invocation that is no proper one is refused before
anything is done: an input has to be a file that exists, an output must not be in the way of what
is going to be written.
-/

namespace QueryPrep.CommandLine

open QueryPrep.Files QueryPrep.Relay

/-- What the program is asked to do. -/
inductive Invocation
  | inline (operations : String) (output : Option String) (asJson strict verbose : Bool)
  | split (operations output : String) (language : Language) (verbose : Bool)
  | compile (schema operations output command : String) (language : Language) (verbose : Bool)
deriving DecidableEq

namespace Invocation

/-- The flag that all commands have. -/
def verboseSpec : OptionSpec := ⟨"verbose", some 'v', false⟩

/-- Where the output goes. -/
def outputSpec : OptionSpec := ⟨"output", some 'o', true⟩

/-- The language, which selects the ending of source files. -/
def languageSpec : OptionSpec := ⟨"language", some 'l', true⟩

/-- The options for inlining. -/
def inlineSpecs : List OptionSpec :=
  [outputSpec, ⟨"json", none, false⟩, ⟨"strict", none, false⟩, verboseSpec]

/-- The options for splitting. -/
def splitSpecs : List OptionSpec := [outputSpec, languageSpec, verboseSpec]

/-- The options for compiling. -/
def compileSpecs : List OptionSpec :=
  [⟨"schema", some 's', true⟩, ⟨"operations", some 'p', true⟩, outputSpec,
    ⟨"command", some 'c', true⟩, languageSpec, verboseSpec]

/-- An input: a file that exists. -/
def inputFile (tree : Tree) (directory : Path) (text : String) : Option String :=
  match tree.status? directory text with
  | some (.file _) => some text
  | _ => none

/-- An output file: anything but a directory. -/
def outputFile (tree : Tree) (directory : Path) (text : String) : Option String :=
  if tree.status? directory text = some .directory then none else some text

/-- An output directory: anything but a file. -/
def outputDirectory (tree : Tree) (directory : Path) (text : String) : Option String :=
  match tree.status? directory text with
  | some (.file _) => none
  | _ => some text

/-- The language option. -/
def language (arguments : Arguments) : Option Language :=
  match arguments.value? "language" with
  | some word => Language.ofWord? word
  | none => some Config.default.language

/-- The only positional argument. -/
def onlyPositional (arguments : Arguments) : Option String :=
  match arguments.positionals with
  | [argument] => some argument
  | _ => none

/-- An invocation for inlining. -/
def readInline (tree : Tree) (directory : Path) (arguments : Arguments) : Option Invocation := do
  let operations ← inputFile tree directory (← onlyPositional arguments)
  let output ← match arguments.value? "output" with
    | some text => some <$> outputFile tree directory text
    | none => some none
  return .inline operations output (arguments.flag "json") (arguments.flag "strict")
    (arguments.flag "verbose")

/-- An invocation for splitting. -/
def readSplit (tree : Tree) (directory : Path) (arguments : Arguments) : Option Invocation := do
  let operations ← inputFile tree directory (← onlyPositional arguments)
  let output ← outputDirectory tree directory (← arguments.value? "output")
  return .split operations output (← language arguments) (arguments.flag "verbose")

/-- An invocation for compiling. -/
def readCompile (tree : Tree) (directory : Path) (arguments : Arguments) : Option Invocation := do
  guard arguments.positionals.isEmpty
  let schema ← inputFile tree directory (← arguments.value? "schema")
  let operations ← inputFile tree directory (← arguments.value? "operations")
  let output ← outputDirectory tree directory (← arguments.value? "output")
  let command := (arguments.value? "command").getD defaultCommand
  return .compile schema operations output command (← language arguments)
    (arguments.flag "verbose")

/-- The options of a command. -/
def specs (command : String) : List OptionSpec :=
  if command = "inline" then inlineSpecs
  else if command = "split" then splitSpecs
  else if command = "compile" then compileSpecs
  else []

/-- An invocation of a command. -/
def readCommand (tree : Tree) (directory : Path) (command : String) (rest : List String) :
    Option Invocation := do
  let arguments ← Arguments.read (specs command) none rest
  if command = "inline" then readInline tree directory arguments
  else if command = "split" then readSplit tree directory arguments
  else if command = "compile" then readCompile tree directory arguments
  else none

/-- The command and its arguments; no options may stand before a command. -/
def split? : List String → Option (String × List String)
  | "--" :: command :: rest => some (command, rest)
  | command :: rest => some (command, rest)
  | [] => none

/--
What the arguments of the program ask for, if they are proper ones. The program is called in a
directory of the tree.
-/
def read (tree : Tree) (directory : Path) (arguments : List String) : Option Invocation := do
  let (command, rest) ← split? arguments
  readCommand tree directory command rest

/-- The texts among the arguments that can name files. -/
def mentioned (arguments : List String) : List String :=
  match split? arguments with
  | none => []
  | some (command, rest) =>
    match Arguments.read (specs command) none rest with
    | none => []
    | some arguments => arguments.positionals ++ arguments.options.map Prod.snd

end Invocation

end QueryPrep.CommandLine
