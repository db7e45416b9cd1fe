import QueryPrep.Graphql.Parser.Basic

/-!
# Reading values, arguments, directives and types

Nested things are read within a budget: entering a list, an object, a selection set or a list type
uses up one level, and at the level after the last the document counts as nested too deeply.
-/

namespace QueryPrep.Graphql.Parser

/-- Whether variables may occur in a value. -/
inductive Variability
  | constant
  | mayVary
deriving DecidableEq

/-- A variable: a dollar sign and a name. -/
def variableName : Parser Name := do
  expectPunctuator .dollar
  expectName

/-- A variable inside a value. In a constant it is an error, which names it if it can. -/
def variableValue : Variability → Parser Value
  | .mayVary => return .variable (← variableName)
  | .constant => do
    expectPunctuator .dollar
    match ← peekName with
    | some name => throw (.constantVariable name)
    | none => throw (.unexpected (some (.punctuator .dollar)))

/-- The value that a bare word stands for. -/
def wordValue (name : Name) : Value :=
  if name.text = "true" then .boolean true
  else if name.text = "false" then .boolean false
  else if name.text = "null" then .null
  else .enum name

/-- A field of an object value, given how its value is read. -/
def objectField (value : Parser Value) : Parser (Name × Value) := do
  let name ← expectName
  expectPunctuator .colon
  return (name, ← value)

/-- Enter one level, if there is one left, and read what is in it. -/
def enter {α : Type} (inner : Option (Parser Value)) (read : Parser Value → Parser α) :
    Parser α :=
  match inner with
  | some inner => read inner
  | none => throw .nestedTooDeeply

/-- A value, given how the values inside it are read as long as a level is left. -/
def valueAround (variability : Variability) (inner : Option (Parser Value)) : Parser Value := do
  match ← peek with
  | some (.punctuator .bracketOpen) =>
    return .list (← enter inner (between .bracketOpen .bracketClose))
  | some (.punctuator .braceOpen) =>
    return .object (← enter inner fun value =>
      between .braceOpen .braceClose (objectField value))
  | some (.int text) =>
    advance
    return .int text
  | some (.float text) =>
    advance
    return .float text
  | some (.string value) =>
    advance
    return .string ⟨value, .quoted⟩
  | some (.blockString value) =>
    advance
    return .string ⟨value, .block⟩
  | some (.name name) =>
    advance
    return wordValue name
  | some (.punctuator .dollar) => variableValue variability
  | _ => unexpected

/-- A value within `depth` further levels. -/
def value (variability : Variability) : (depth : Nat) → Parser Value
  | 0 => valueAround variability none
  | depth + 1 => valueAround variability (some (value variability depth))

/-- A named argument. -/
def argument (variability : Variability) (depth : Nat) : Parser Argument := do
  let name ← expectName
  expectPunctuator .colon
  return ⟨name, ← value variability depth⟩

/-- Arguments in parentheses, if there are any. -/
def arguments (variability : Variability) (depth : Nat) : Parser (List Argument) :=
  optionalBetween .parenthesisOpen .parenthesisClose (argument variability depth)

/-- A directive: an at sign, a name and arguments. -/
def directive (variability : Variability) (depth : Nat) : Parser Directive := do
  expectPunctuator .atSign
  let name ← expectName
  return ⟨name, ← arguments variability depth⟩

/-- The directives that stand here. -/
def directives (variability : Variability) (depth : Nat) : Parser (List Directive) :=
  whileAt .atSign (directive variability depth)

/-- A type that may be marked as never null. -/
def orNonNull (type : TypeReference) : Parser TypeReference := do
  if ← skipPunctuator .bang then return .nonNull type else return type

/-- A type, given how the type inside brackets is read. -/
def typeAround (inner : Parser TypeReference) : Parser TypeReference := do
  if ← skipPunctuator .bracketOpen then
    let item ← inner
    expectPunctuator .bracketClose
    orNonNull (.list item)
  else
    orNonNull (.named (← expectName))

/-- A type within `depth` further levels. -/
def typeReference : (depth : Nat) → Parser TypeReference
  | 0 => typeAround (throw .nestedTooDeeply)
  | depth + 1 => typeAround (typeReference depth)

end QueryPrep.Graphql.Parser
