/-!
# Definitions as text

A definition that has been found in a text but not parsed: its kind, its name and its text from
the keyword to the closing brace.
-/

namespace QueryPrep.Source

/-- The kinds of definition that are looked for. -/
inductive DefinitionKind
  | query
  | fragment
deriving DecidableEq

namespace DefinitionKind

/-- The word that opens a definition. -/
def keyword : DefinitionKind → String
  | .query => "query"
  | .fragment => "fragment"

/-- All kinds, in the order in which they are tried. -/
def all : List DefinitionKind := [.query, .fragment]

/-- The kind whose keyword opens the text. It need not be a word of its own there. -/
def opening? (text : List Char) : Option DefinitionKind :=
  all.find? fun kind => kind.keyword.toList.isPrefixOf text

end DefinitionKind

/-- A definition in its textual form. -/
structure RawDefinition where
  kind : DefinitionKind
  name : String
  content : String
deriving DecidableEq

end QueryPrep.Source
