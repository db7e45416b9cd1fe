import QueryPrep.Graphql.Name
import QueryPrep.Source.Definition

/-!
# Events

What the library reports while it works, apart from its results. An event has a severity, belongs
to one of the components of the program and is shown as one line of text.
-/

namespace QueryPrep

open QueryPrep.Graphql QueryPrep.Source

/-- How important an event is. -/
inductive Severity
  | debug
  | info
  | warning
deriving DecidableEq

/-- The word for a severity. -/
def Severity.word : Severity → String
  | .debug => "DEBUG"
  | .info => "INFO"
  | .warning => "WARNING"

/-- Something worth reporting. -/
inductive Event
  /-- A fragment name has been defined again. -/
  | fragmentRedefined (name : Name)
  /-- All operations of a document have been inlined, with so many fragments. -/
  | operationsInlined (operations fragments : Nat)
  /-- A definition has been found in a text. -/
  | definitionFound (kind : DefinitionKind) (name : String)
  /-- A text has ended after the name of a definition. -/
  | definitionSkipped (name : String)
  /-- All files of a workspace have been written. -/
  | workspacePrepared (workspace : String) (filenames : List String)
  /-- The tool is about to start. -/
  | toolStarted (commandLine workspace : String)
deriving DecidableEq

namespace Event

/-- The severity of an event. -/
def severity : Event → Severity
  | .fragmentRedefined _ => .warning
  | .toolStarted _ _ => .info
  | _ => .debug

/-- The component that an event belongs to. -/
def component : Event → String
  | .fragmentRedefined _ => "gql_inline.core.inliner"
  | .operationsInlined _ _ => "gql_inline.core.inliner"
  | .definitionFound _ _ => "gql_inline.core.splitter"
  | .definitionSkipped _ => "gql_inline.core.splitter"
  | .workspacePrepared _ _ => "gql_inline.core.compiler"
  | .toolStarted _ _ => "gql_inline.core.compiler"

/-- What an event says. -/
def text : Event → String
  | .fragmentRedefined name =>
    "Fragment " ++ name.text ++ " is defined more than once; using the last definition"
  | .operationsInlined operations fragments =>
    "Inlined " ++ toString operations ++ " operation(s) using " ++ toString fragments ++
      " fragment(s)"
  | .definitionFound kind name => "Found " ++ kind.keyword ++ " " ++ name
  | .definitionSkipped name => "Definition " ++ name ++ " has no body; skipped"
  | .workspacePrepared workspace filenames =>
    "Prepared workspace " ++ workspace ++ " with sources: " ++ String.intercalate ", " filenames
  | .toolStarted commandLine workspace => "Running " ++ commandLine ++ " in " ++ workspace

/-- The line that an event is recorded as. -/
def line (event : Event) : String :=
  event.severity.word ++ " " ++ event.component ++ ": " ++ event.text

end Event

end QueryPrep
