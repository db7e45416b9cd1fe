import QueryPrep.Graphql.Parser.Selection

/-!
# Reading definitions of the type system

These definitions are checked and dropped. A part of one that may be absent is read as a Boolean
that tells whether it was there, because an extension has to have one of its parts.
-/

namespace QueryPrep.Graphql.Parser

/-- The words that open a definition of the type system. -/
def typeSystemKeywords : List String :=
  ["schema", "scalar", "type", "interface", "union", "enum", "input", "directive"]

/-- The places that a directive definition can name. -/
def directiveLocations : List String :=
  ["QUERY", "MUTATION", "SUBSCRIPTION", "FIELD", "FRAGMENT_DEFINITION", "FRAGMENT_SPREAD",
    "INLINE_FRAGMENT", "VARIABLE_DEFINITION", "FRAGMENT_VARIABLE_DEFINITION", "SCHEMA", "SCALAR",
    "OBJECT", "FIELD_DEFINITION", "ARGUMENT_DEFINITION", "INTERFACE", "UNION", "ENUM",
    "ENUM_VALUE", "INPUT_OBJECT", "INPUT_FIELD_DEFINITION", "DIRECTIVE_DEFINITION"]

/-- Were there directives, all of them constant? -/
def hasDirectives (depth : Nat) : Parser Bool := do
  return !(← directives .constant depth).isEmpty

/-- Was there a nonempty block of items in braces? -/
def hasBlock (item : Parser Unit) : Parser Bool := do
  return !(← optionalBetween .braceOpen .braceClose item).isEmpty

/-- An argument of a field or a directive, or a field of an input type. -/
def inputDefinition (depth : Nat) : Parser Unit := do
  let _ ← literal?
  let _ ← expectName
  expectPunctuator .colon
  let _ ← typeReference depth
  if ← skipPunctuator .equals then
    let _ ← value .constant depth
  let _ ← hasDirectives depth

/-- The arguments that a field or a directive takes, if any. -/
def argumentDefinitions (depth : Nat) : Parser Unit := do
  let _ ← optionalBetween .parenthesisOpen .parenthesisClose (inputDefinition depth)

/-- A field of an object type or an interface. -/
def fieldDefinition (depth : Nat) : Parser Unit := do
  let _ ← literal?
  let _ ← expectName
  argumentDefinitions depth
  expectPunctuator .colon
  let _ ← typeReference depth
  let _ ← hasDirectives depth

/-- The interfaces that a type implements. -/
def hasInterfaces : Parser Bool := do
  if ← skipKeyword "implements" then
    let _ ← separatedBy .ampersand expectName
    return true
  else
    return false

/-- The members of a union. -/
def hasMembers : Parser Bool := do
  if ← skipPunctuator .equals then
    let _ ← separatedBy .pipe expectName
    return true
  else
    return false

/-- A value of an enumeration; three words are reserved for other values. -/
def enumValue (depth : Nat) : Parser Unit := do
  let _ ← literal?
  match ← peek with
  | some lexeme =>
    if (lexeme.content?.any (["true", "false", "null"].contains ·)) then
      throw (.reservedEnumValue lexeme)
  | none => pure ()
  let _ ← expectName
  let _ ← hasDirectives depth

/-- The root type of one kind of operation. -/
def rootType : Parser Unit := do
  let _ ← operationKind
  expectPunctuator .colon
  let _ ← expectName

/-- One place that a directive may be used at. -/
def directiveLocation : Parser Unit := do
  let found ← peek
  let name ← expectName
  unless directiveLocations.contains name.text do
    throw (.unexpected found)

/-- A definition whose keyword is the current token. -/
def typeSystemDefinition (depth : Nat) (keyword : String) : Parser Unit := do
  expectKeyword keyword
  if keyword = "schema" then
    let _ ← hasDirectives depth
    let _ ← someBetween .braceOpen .braceClose rootType
  else if keyword = "directive" then
    expectPunctuator .atSign
    let _ ← expectName
    argumentDefinitions depth
    let _ ← hasDirectives depth
    let _ ← skipKeyword "repeatable"
    expectKeyword "on"
    let _ ← separatedBy .pipe directiveLocation
  else
    let _ ← expectName
    if keyword = "scalar" then
      let _ ← hasDirectives depth
    else if keyword = "union" then
      let _ ← hasDirectives depth
      let _ ← hasMembers
    else if keyword = "enum" then
      let _ ← hasDirectives depth
      let _ ← hasBlock (enumValue depth)
    else if keyword = "input" then
      let _ ← hasDirectives depth
      let _ ← hasBlock (inputDefinition depth)
    else
      let _ ← hasInterfaces
      let _ ← hasDirectives depth
      let _ ← hasBlock (fieldDefinition depth)

/-- The parts of an extension after its keyword; tells whether any was there. -/
def extensionParts (depth : Nat) (keyword : String) : Parser Bool := do
  if keyword = "schema" then
    let directives ← hasDirectives depth
    let types ← hasBlock rootType
    return directives || types
  else if keyword = "directive" then
    expectPunctuator .atSign
    let _ ← expectName
    hasDirectives depth
  else
    let _ ← expectName
    if keyword = "scalar" then
      hasDirectives depth
    else if keyword = "union" then
      let directives ← hasDirectives depth
      let members ← hasMembers
      return directives || members
    else if keyword = "enum" then
      let directives ← hasDirectives depth
      let values ← hasBlock (enumValue depth)
      return directives || values
    else if keyword = "input" then
      let directives ← hasDirectives depth
      let fields ← hasBlock (inputDefinition depth)
      return directives || fields
    else
      let interfaces ← hasInterfaces
      let directives ← hasDirectives depth
      let fields ← hasBlock (fieldDefinition depth)
      return interfaces || directives || fields

/-- An extension. What it extends is looked at before the first word is taken. -/
def typeSystemExtension (depth : Nat) : Parser Unit := do
  match ← peekNext with
  | some (.name keyword) =>
    if typeSystemKeywords.contains keyword.text then
      advance
      advance
      unless ← extensionParts depth keyword.text do
        unexpected
    else
      throw (.unexpected (some (.name keyword)))
  | found => throw (.unexpected found)

end QueryPrep.Graphql.Parser
