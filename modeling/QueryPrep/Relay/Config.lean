import QueryPrep.Settings
import QueryPrep.Text.JsonObject

/-!
# Workspace configuration

Where the compiler finds its inputs, where it puts its artifacts, and for which language. Paths
are read in the workspace.
-/

namespace QueryPrep.Relay

open QueryPrep.Text

/-- The languages that artifacts can be generated for. -/
inductive Language
  | javascript
  | typescript
  | flow
deriving DecidableEq

namespace Language

/-- The word for a language. -/
def word : Language → String
  | .javascript => "javascript"
  | .typescript => "typescript"
  | .flow => "flow"

/-- The language that a word stands for. -/
def ofWord? (text : String) : Option Language :=
  [javascript, typescript, flow].find? (·.word == text)

/-- The ending of the source files. -/
def extension : Language → String
  | .javascript => ".js"
  | .typescript => ".ts"
  | .flow => ".js"

end Language

/-- The configuration of a workspace. -/
structure Config where
  src : String := "./src"
  schemaPath : String := "./schema.graphql"
  artifactDirectory : String := "./output"
  language : Language := .javascript
deriving DecidableEq

namespace Config

/-- The configuration that holds unless something else is said. -/
def default : Config := {}

/-- The default configuration for a language. -/
def forLanguage (language : Language) : Config :=
  { language }

/-- The language setting; javascript if there is none. -/
def checkLanguage (settings : Settings) : Checked Language :=
  match settings.lookup "language" with
  | none => .ok default.language
  | some (.text value) =>
    match Language.ofWord? value with
    | some language => .ok language
    | none => .error [⟨.noChoice, "language"⟩]
  | some _ => .error [⟨.noChoice, "language"⟩]

/--
The configuration that the settings describe. Two of the paths have a second spelling, which only
counts where the first is not given. Unknown names are ignored.
-/
def ofSettings (settings : Settings) : Checked Config := do
  let src := checkStringOr settings default.src ["src"]
  let schema := checkStringOr settings default.schemaPath ["schema", "schema_path"]
  let artifacts := checkStringOr settings default.artifactDirectory
    ["artifactDirectory", "artifact_directory"]
  let (src, schemaPath, artifactDirectory, language) ←
    src.both (schema.both (artifacts.both (checkLanguage settings)))
  return ⟨src, schemaPath, artifactDirectory, language⟩

/-- The ending of the source files. -/
def extension (config : Config) : String :=
  config.language.extension

/-- The configuration as the compiler reads it. -/
def toJson (config : Config) : String :=
  JsonObject.render
    [("src", JsonObject.string config.src), ("schema", JsonObject.string config.schemaPath),
      ("artifactDirectory", JsonObject.string config.artifactDirectory),
      ("language", JsonObject.string config.language.word)]

end Config

end QueryPrep.Relay
