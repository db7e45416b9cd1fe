import QueryPrep.Files.Tree
import QueryPrep.Text.Lines

/-!
# Tools

A tool is an external program. It may be missing, refuse to start, run out of time or exit with any
code, it writes any bytes to its two streams, and it may turn the file tree into any other one.
Whoever runs a command reads the streams as text, so a tool may also write what nobody can read.
-/

namespace QueryPrep.Relay

open QueryPrep.Files QueryPrep.Text

/-- Something that goes wrong and that nobody has foreseen. -/
inductive Mishap
  /-- A command without any words. -/
  | noProgram
  /-- A null character in a word of a command. -/
  | nullCharacter
  /-- A program that is there but cannot be started, with the reason that the system gives. -/
  | unstartable (reason : String)
  /-- Bytes that are the encoding of no text. -/
  | undecodable
deriving DecidableEq

/-- The message of a mishap. -/
def Mishap.message : Mishap → String
  | .noProgram => "list index out of range"
  | .nullCharacter => "embedded null byte"
  | .unstartable reason => reason
  | .undecodable => "invalid text encoding"

/-- What becomes of a tool. -/
inductive ToolOutcome
  /-- There is no such tool. -/
  | missing
  /-- It has not been started. -/
  | unstarted (mishap : Mishap)
  /-- It took too long. -/
  | timedOut
  /-- It ended by itself. -/
  | exited (code : Int) (stdout stderr : ByteArray)
deriving DecidableEq

/-- A tool, given its command, the directory that it is started in and all files. -/
abbrev Tool := List String → Path → Tree → ToolOutcome × Tree

/-- What running a command comes to. -/
inductive Ending
  | completed (code : Int) (stdout stderr : String)
  | notFound (program : String)
  | timedOut
  | broken (mishap : Mishap)
deriving DecidableEq

/-- A way to run commands, each in a directory of its own. -/
abbrev Runner := List String → Path → Tree → Ending × Tree

/--
What keeps a command from being started, whatever tools there are. A program with an empty name is
found in every directory that programs are searched in: it is the directory itself.
-/
def obstacle? (command : List String) : Option Mishap :=
  match command with
  | [] => some .noProgram
  | program :: _ =>
    if command.any (·.toList.contains '\x00') then some .nullCharacter
    else if program.isEmpty then some (.unstartable "Permission denied")
    else none

/-- A tool is started with a command, if anything can be. -/
def Tool.start (tool : Tool) (command : List String) (directory : Path) (tree : Tree) :
    ToolOutcome × Tree :=
  match obstacle? command with
  | some mishap => (.unstarted mishap, tree)
  | none => tool command directory tree

/-- What the outcome of a tool looks like once its streams have been read. -/
def ToolOutcome.ending (command : List String) : ToolOutcome → Ending
  | .missing => .notFound (command.headD "")
  | .unstarted mishap => .broken mishap
  | .timedOut => .timedOut
  | .exited code stdout stderr =>
    match readText? stdout, readText? stderr with
    | some stdout, some stderr => .completed code stdout stderr
    | _, _ => .broken .undecodable

/-- Commands are run by starting a tool. -/
def Tool.runner (tool : Tool) : Runner := fun command directory tree =>
  let (outcome, after) := tool.start command directory tree
  (outcome.ending command, after)

end QueryPrep.Relay
