import QueryPrep.Source.Definition

/-!
# Source files

Every definition belongs to a file that its name determines: the query `ProfileQuery` and the
fragment `Profile_user` both go to `Profile`. A file lists its queries before its fragments and
each kind by its text, so the files do not depend on the order of the definitions.
-/

namespace QueryPrep.Source

/-- A definition with the file that it goes to. -/
structure FileRecord where
  filename : String
  kind : DefinitionKind
  content : String
deriving DecidableEq

/-- A file with its complete content. -/
structure MergedFile where
  filename : String
  content : String
deriving DecidableEq

/-- The ending that the name of a query loses. -/
def querySuffix : List Char := "Query".toList

/-- The part of a definition's name that names its file. -/
def baseName (kind : DefinitionKind) (name : List Char) : List Char :=
  match kind with
  | .query =>
    if querySuffix.isSuffixOf name then name.take (name.length - querySuffix.length) else name
  | .fragment => name.takeWhile (· != '_')

/-- The file that a definition goes to. -/
def filenameFor (kind : DefinitionKind) (name extension : String) : String :=
  String.ofList (baseName kind name.toList) ++ extension

/-- A definition with its file. -/
def RawDefinition.toRecord (extension : String) (definition : RawDefinition) : FileRecord :=
  ⟨filenameFor definition.kind definition.name extension, definition.kind, definition.content⟩

/-- Queries come before fragments. -/
def DefinitionKind.rank : DefinitionKind → Nat
  | .query => 0
  | .fragment => 1

/-- Records are ordered by file, then by kind, then by content. -/
def FileRecord.le (first second : FileRecord) : Bool :=
  if first.filename = second.filename then
    if first.kind = second.kind then decide (first.content ≤ second.content)
    else decide (first.kind.rank < second.kind.rank)
  else decide (first.filename < second.filename)

/-- The records of one file after another; records of the same file must be neighbours. -/
def groupRecords : List FileRecord → List (String × List String)
  | [] => []
  | record :: rest =>
    match groupRecords rest with
    | [] => [(record.filename, [record.content])]
    | (filename, contents) :: others =>
      if record.filename = filename then (filename, record.content :: contents) :: others
      else (record.filename, [record.content]) :: (filename, contents) :: others

/-- A definition inside its file: a tagged template. The content is inserted as it is. -/
def tagged (content : String) : String :=
  "graphql`" ++ content ++ "`"

/-- The content of a file: its definitions on lines of their own. -/
def renderContents (contents : List String) : String :=
  String.intercalate "\n" (contents.map tagged)

/-- The files that records go to, ordered by name. -/
def mergeFileRecords (records : List FileRecord) : List MergedFile :=
  (groupRecords (records.mergeSort FileRecord.le)).map fun group =>
    ⟨group.1, renderContents group.2⟩

/-- The files that definitions go to, ordered by name. -/
def groupDefinitions (extension : String) (definitions : List RawDefinition) : List MergedFile :=
  mergeFileRecords (definitions.map (·.toRecord extension))

end QueryPrep.Source
