import QueryPrep.Files.Tree
import QueryPrep.Relay.Config
import QueryPrep.Source.File
import QueryPrep.Source.Scanner

/-!
# Workspaces

A workspace is the directory that the compiler runs in: the grouped source files, the schema, the
configuration and an empty directory for the artifacts. The operations are split and grouped
before anything is written, so operations that cannot be split leave no trace.

The paths of the configuration are read in the workspace, but a path with a slash in front, or one
that climbs high enough, leads out of it.
-/

namespace QueryPrep.Relay

open QueryPrep.Files QueryPrep.Source

/-- A reason why a workspace cannot be prepared. -/
inductive WorkspaceError
  | split (error : SplitError)
  | file (error : FileError)
deriving DecidableEq

/-- The name of the configuration file, at the root of the workspace. -/
def configFilename : String := "relay.config.json"

/-- The source files for the operations. -/
def sourceFiles (config : Config) (operations : String) : Except SplitError (List MergedFile) := do
  return groupDefinitions config.extension (← splitDefinitions operations)

/-- Write files into a directory, one after the other. -/
def writeSources (medium : Medium) (directory : List String) : List MergedFile → Change Unit
  | [] => pure ()
  | file :: rest => do
    medium.writeFile (directory ++ [file.filename]) file.content
    writeSources medium directory rest

/-- Make the directories of the workspace at a place and write all its files. -/
def writeWorkspace (config : Config) (medium : Medium) (place : Path) (schema : String)
    (files : List MergedFile) : Change Unit := do
  medium.ensureDirectories (stepsFrom place config.src)
  medium.ensureDirectories (stepsFrom place config.artifactDirectory)
  writeSources medium (stepsFrom place config.src) files
  medium.writeFile (stepsFrom place config.schemaPath) schema
  medium.writeFile (place ++ [configFilename]) config.toJson

/-- Prepare the workspace at a place; the answer is its source files. -/
def prepareWorkspace (config : Config) (medium : Medium) (place : Path)
    (schema operations : String) : EStateM WorkspaceError Tree (List MergedFile) := fun tree =>
  match sourceFiles config operations with
  | .error error => .error (.split error) tree
  | .ok files =>
    match writeWorkspace config medium place schema files tree with
    | .ok () tree => .ok files tree
    | .error error tree => .error (.file error) tree

/-- What is reported while a workspace is prepared, given how that went. -/
def prepareEvents (label operations : String)
    (outcome : EStateM.Result WorkspaceError Tree (List MergedFile)) : List Event :=
  match outcome with
  | .ok files _ =>
    splitEvents operations ++ [.workspacePrepared label (files.map MergedFile.filename)]
  | .error _ _ => splitEvents operations

end QueryPrep.Relay
