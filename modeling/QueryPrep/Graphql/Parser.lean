import QueryPrep.Graphql.Parser.TypeSystem

/-!
# Reading documents

A document is one definition or more. Which kind a definition is follows from the first token
after its description. Reading also tells where each definition stands in the text.
-/

namespace QueryPrep.Graphql

/-- A definition together with its place among the tokens. -/
structure LocatedDefinition where
  definition : Definition
  /-- The tokens from the first word of the definition on, which comes after its description. -/
  start : TokenStream
  /-- The tokens behind the definition. -/
  behind : TokenStream

/-- The text of a definition without its description, from its first word to its last token. -/
def LocatedDefinition.source (located : LocatedDefinition) : List Char :=
  located.start.sourceBefore located.behind

namespace Parser

/-- How deeply a document may be nested. -/
def depthLimit : Nat := 200

/--
What a definition says, given its description, which has been read, and the token that was found
after the description.
-/
def definitionAfter (description : Option StringLiteral) : Parser Definition := do
  match ← peek with
  | some (.punctuator .braceOpen) => return .operation (← shorthand depthLimit)
  | some (.name name) =>
    if typeSystemKeywords.contains name.text then
      typeSystemDefinition depthLimit name.text
      return .typeSystem
    else if (operationKind? name.text).isSome then
      return .operation (← operation depthLimit description)
    else if name.text = "fragment" then
      return .fragment (← fragmentDefinition depthLimit description)
    else if description.isSome then
      throw .describedNonDefinition
    else if name.text = "extend" then
      typeSystemExtension depthLimit
      return .typeSystem
    else
      unexpected
  | _ => unexpected

/-- A description, which may not stand before a bare selection set. -/
def leadingDescription : Parser (Option StringLiteral) := do
  let description ← literal?
  if description.isSome && (← atPunctuator .braceOpen) then
    throw .describedShorthand
  return description

/-- A definition and its place. -/
def definition : Parser LocatedDefinition := do
  let description ← leadingDescription
  let start ← get
  let definition ← definitionAfter description
  return ⟨definition, start, ← get⟩

/-- At most `rounds` definitions, up to the end of the text. -/
def definitionsWithin : Nat → Parser (List LocatedDefinition)
  | 0 => unexpected
  | rounds + 1 => do
    let first ← definition
    match ← current with
    | none => return [first]
    | some _ => return first :: (← definitionsWithin rounds)

/-- All definitions up to the end of the text, at least one. -/
def definitions : Parser (List LocatedDefinition) := do
  definitionsWithin ((← get).length + 1)

end Parser

/-- The definitions of a text with their places, or the first thing that is wrong with it. -/
def parseLocated (text : String) : Except SyntaxError (List LocatedDefinition) := do
  let start ← Parser.arrive (.ofText text.toList)
  return (← Parser.definitions.run start).1

/-- The document that a text holds, or the first thing that is wrong with it. -/
def Document.parse (text : String) : Except SyntaxError Document := do
  return ⟨(← parseLocated text).map LocatedDefinition.definition⟩

end QueryPrep.Graphql
