import QueryPrep.Graphql.BlockString
import QueryPrep.Graphql.Syntax
import QueryPrep.Text.Layout
import QueryPrep.Text.Quoted

/-!
# Printing documents

A document has one printed form: two blanks of indentation, one selection on a line, a blank line
between definitions. Arguments, lists and objects stay on one line unless that would be longer
than eighty characters, in which case each of their items gets a line of its own.
-/

namespace QueryPrep.Graphql

open QueryPrep.Text

/-- The longest line that a list, an object or a field with its arguments may take. -/
def lineWidth : Nat := 80

/--
Control characters are escaped, also those above the ASCII range, with upper-case digits; all
other characters stand for themselves.
-/
def stringStyle : QuoteStyle where
  numeric character := character.toNat < 0x20 || (0x7F ≤ character.toNat && character.toNat < 0xA0)
  digit := upperHexDigit

/-- A string literal in the style that it was written in. -/
def StringLiteral.print (literal : StringLiteral) : String :=
  match literal.style with
  | .quoted => stringStyle.quote literal.value
  | .block => BlockString.print literal.value

/-- Items in brackets, on one line if they fit. -/
def printList (items : List String) : String :=
  let line := "[" ++ joinPresent ", " items ++ "]"
  if line.length ≤ lineWidth then line
  else "[\n" ++ indent (joinPresent "\n" items) ++ "\n]"

/-- Fields in braces, on one line if they fit. -/
def printObject (fields : List String) : String :=
  let line := "\x7b " ++ joinPresent ", " fields ++ " \x7d"
  if line.length ≤ lineWidth then line else braced fields

namespace Value

mutual

/-- A value as it is printed. -/
def print : Value → String
  | .variable name => "$" ++ name.text
  | .int text => text
  | .float text => text
  | .string literal => literal.print
  | .boolean true => "true"
  | .boolean false => "false"
  | .null => "null"
  | .enum name => name.text
  | .list values => printList (printEach values)
  | .object fields => printObject (printFields fields)

/-- Every value of a list. -/
def printEach : List Value → List String
  | [] => []
  | value :: rest => value.print :: printEach rest

/-- Every field of an object. -/
def printFields : List (Name × Value) → List String
  | [] => []
  | (name, value) :: rest => (name.text ++ ": " ++ value.print) :: printFields rest

end

end Value

/-- An argument as it is printed. -/
def Argument.print (argument : Argument) : String :=
  argument.name.text ++ ": " ++ argument.value.print

/-- A directive, always on one line. -/
def Directive.print (directive : Directive) : String :=
  "@" ++ directive.name.text ++
    wrap "(" (joinPresent ", " (directive.arguments.map Argument.print)) ")"

/-- Directives with a blank between them. -/
def printDirectives (directives : List Directive) : String :=
  joinPresent " " (directives.map Directive.print)

/-- A type as it is written. -/
def TypeReference.print : TypeReference → String
  | .named name => name.text
  | .list item => "[" ++ item.print ++ "]"
  | .nonNull inner => inner.print ++ "!"

/-- The name of a field with its alias and its arguments. -/
def printFieldLine (label : Option Name) (name : Name) (arguments : List Argument) : String :=
  let start := wrap "" ((label.map Name.text).getD "") ": " ++ name.text
  let printed := arguments.map Argument.print
  let line := start ++ wrap "(" (joinPresent ", " printed) ")"
  if line.length ≤ lineWidth then line
  else start ++ wrap "(\n" (indent (joinPresent "\n" printed)) "\n)"

/-- What a node asks for, without its selection set. -/
def Head.print : Head → String
  | .field label name arguments directives =>
    joinPresent " " [printFieldLine label name arguments, printDirectives directives]
  | .inlineFragment typeCondition directives =>
    joinPresent " "
      ["...", wrap "on " ((typeCondition.map Name.text).getD "") "", printDirectives directives]

/-- A spread: three dots, the name and the directives. -/
def printSpread (name : Name) (directives : List Directive) : String :=
  "..." ++ name.text ++ wrap " " (printDirectives directives) ""

namespace Selection

mutual

/-- A selection as it is printed. -/
def print : Selection → String
  | .node head none => head.print
  | .node head (some selections) => joinPresent " " [head.print, braced (printEach selections)]
  | .spread name directives => printSpread name directives

/-- Every selection of a list. -/
def printEach : List Selection → List String
  | [] => []
  | selection :: rest => selection.print :: printEach rest

end

end Selection

/-- A selection set as it is printed. -/
def printSelections (selections : List Selection) : String :=
  braced (Selection.printEach selections)

/-- A description on a line of its own. -/
def printDescription (description : Option StringLiteral) : String :=
  wrap "" ((description.map StringLiteral.print).getD "") "\n"

/-- A variable definition, its description on the line before. -/
def VariableDefinition.print (definition : VariableDefinition) : String :=
  printDescription definition.description ++ "$" ++ definition.name.text ++ ": " ++
    definition.type.print ++ wrap " = " ((definition.default.map Value.print).getD "") "" ++
    wrap " " (printDirectives definition.directives) ""

/-- Variable definitions in parentheses, on one line unless one of them has several lines. -/
def printVariables (definitions : List VariableDefinition) : String :=
  let printed := definitions.map VariableDefinition.print
  if printed.any (·.toList.contains '\n') then
    wrap "(\n" (joinPresent "\n" printed) "\n)"
  else
    wrap "(" (joinPresent ", " printed) ")"

/-- The word that opens an operation. -/
def OperationKind.keyword : OperationKind → String
  | .query => "query"
  | .mutation => "mutation"
  | .subscription => "subscription"

/-- What stands before the selections of an operation. -/
def Operation.printHead (operation : Operation) : String :=
  let name := (operation.name.map Name.text).getD ""
  printDescription operation.description ++
    joinPresent " "
      [operation.kind.keyword, name ++ printVariables operation.variableDefinitions,
        printDirectives operation.directives]

/-- An operation. A query without anything but selections is printed as just those. -/
def Operation.print (operation : Operation) : String :=
  let head := operation.printHead
  if head = "query" then printSelections operation.selections
  else head ++ " " ++ printSelections operation.selections

/-- A fragment as it is printed. -/
def FragmentDefinition.print (fragment : FragmentDefinition) : String :=
  printDescription fragment.description ++ "fragment " ++ fragment.name.text ++ " on " ++
    fragment.typeCondition.text ++ " " ++ wrap "" (printDirectives fragment.directives) " " ++
    printSelections fragment.selections

/-- A definition as it is printed; one of the type system has no printed form. -/
def Definition.print : Definition → String
  | .operation found => found.print
  | .fragment found => found.print
  | .typeSystem => ""

/-- A document: its definitions with a blank line between them. -/
def Document.print (document : Document) : String :=
  joinPresent "\n\n" (document.definitions.map Definition.print)

end QueryPrep.Graphql
