import QueryPrep.Graphql.Parser.Value

/-!
# Reading selection sets, operations and fragments
-/

namespace QueryPrep.Graphql.Parser

/-- A selection set if one opens here. -/
def optionalSet (selections : Parser (List Selection)) : Parser (Option (List Selection)) := do
  if ← atPunctuator .braceOpen then return some (← selections) else return none

/-- A field. `depth` levels are left for its values, and `selections` reads its selection set. -/
def field (depth : Nat) (selections : Parser (List Selection)) : Parser Selection := do
  let first ← expectName
  let aliased ← skipPunctuator .colon
  let name ← if aliased then expectName else pure first
  let arguments ← arguments .mayVary depth
  let directives ← directives .mayVary depth
  let label := if aliased then some first else none
  return .node (.field label name arguments directives) (← optionalSet selections)

/-- What follows three dots: a spread, or an inline fragment with or without a condition. -/
def afterEllipsis (depth : Nat) (selections : Parser (List Selection)) : Parser Selection := do
  if ← skipKeyword "on" then
    let condition ← expectName
    let directives ← directives .mayVary depth
    return .node (.inlineFragment (some condition) directives) (some (← selections))
  else
    match ← peekName with
    | some name =>
      advance
      return .spread name (← directives .mayVary depth)
    | none =>
      let directives ← directives .mayVary depth
      return .node (.inlineFragment none directives) (some (← selections))

/-- One selection. -/
def selection (depth : Nat) (selections : Parser (List Selection)) : Parser Selection := do
  if ← skipPunctuator .ellipsis then afterEllipsis depth selections else field depth selections

/-- A selection set within `depth` further levels; it may be empty. -/
def selectionSet : (depth : Nat) → Parser (List Selection)
  | 0 => throw .nestedTooDeeply
  | depth + 1 => between .braceOpen .braceClose (selection depth (selectionSet depth))

/-- The kind of operation that a word names. -/
def operationKind? (word : String) : Option OperationKind :=
  if word = "query" then some .query
  else if word = "mutation" then some .mutation
  else if word = "subscription" then some .subscription
  else none

/-- One of the three words that name a kind of operation. -/
def operationKind : Parser OperationKind := do
  let found ← peek
  let name ← expectName
  match operationKind? name.text with
  | some kind => return kind
  | none => throw (.unexpected found)

/-- A variable definition. -/
def variableDefinition (depth : Nat) : Parser VariableDefinition := do
  let description ← literal?
  let name ← variableName
  expectPunctuator .colon
  let type ← typeReference depth
  let hasDefault ← skipPunctuator .equals
  let default ← if hasDefault then some <$> value .constant depth else pure none
  return ⟨description, name, type, default, ← directives .constant depth⟩

/-- An operation that opens with its kind; its description has been read. -/
def operation (depth : Nat) (description : Option StringLiteral) : Parser Operation := do
  let kind ← operationKind
  let name ← peekName
  if name.isSome then advance
  let definitions ← optionalBetween .parenthesisOpen .parenthesisClose (variableDefinition depth)
  let directives ← directives .mayVary depth
  return ⟨description, kind, name, definitions, directives, ← selectionSet depth⟩

/-- An operation that is nothing but a selection set. -/
def shorthand (depth : Nat) : Parser Operation := do
  return ⟨none, .query, none, [], [], ← selectionSet depth⟩

/-- The name of a fragment: any but the word that introduces its type condition. -/
def fragmentName : Parser Name := do
  if ((← peek).bind Lexeme.content?) == some "on" then unexpected else expectName

/-- A type condition: the word and a name. -/
def typeCondition : Parser Name := do
  expectKeyword "on"
  expectName

/-- A fragment; its description has been read. -/
def fragmentDefinition (depth : Nat) (description : Option StringLiteral) :
    Parser FragmentDefinition := do
  expectKeyword "fragment"
  let name ← fragmentName
  let condition ← typeCondition
  let directives ← directives .mayVary depth
  return ⟨description, name, condition, directives, ← selectionSet depth⟩

end QueryPrep.Graphql.Parser
