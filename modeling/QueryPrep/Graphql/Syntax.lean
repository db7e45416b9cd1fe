import QueryPrep.Graphql.Name

/-!
# Documents of the query language

The tree of a parsed document. A selection is either a node, which may hold a selection set of
its own, or a spread of a named fragment. Fields and inline fragments are told apart by the
node's head alone, because everything that walks or merges selection sets treats them alike.

A missing selection set and an empty one are different things: the first belongs to a field
without braces, the second to one with nothing between them.
-/

namespace QueryPrep.Graphql

/-- How a string literal is written: between single quotation marks, or as a block. -/
inductive StringStyle
  | quoted
  | block
deriving DecidableEq

/-- A string literal: the text it stands for and the way it is written. -/
structure StringLiteral where
  value : String
  style : StringStyle
deriving DecidableEq

/-- An input value. Numbers keep the text they were written with. -/
inductive Value
  | variable (name : Name)
  | int (text : String)
  | float (text : String)
  | string (literal : StringLiteral)
  | boolean (value : Bool)
  | null
  | enum (name : Name)
  | list (values : List Value)
  | object (fields : List (Name × Value))

/-- A named argument of a field or a directive. -/
structure Argument where
  name : Name
  value : Value

/-- A directive such as `@include(if: $wanted)`. -/
structure Directive where
  name : Name
  arguments : List Argument

/-- A type as a variable definition names it. -/
inductive TypeReference
  | named (name : Name)
  | list (item : TypeReference)
  | nonNull (inner : TypeReference)

/-- A variable that an operation declares. -/
structure VariableDefinition where
  description : Option StringLiteral
  name : Name
  type : TypeReference
  default : Option Value
  directives : List Directive

/-- What a node of a selection set asks for, its own selection set apart. -/
inductive Head
  | field (label : Option Name) (name : Name) (arguments : List Argument)
      (directives : List Directive)
  | inlineFragment (typeCondition : Option Name) (directives : List Directive)

/-- One selection of a selection set. -/
inductive Selection
  | node (head : Head) (selections : Option (List Selection))
  | spread (name : Name) (directives : List Directive)

/-- The three kinds of operation. -/
inductive OperationKind
  | query
  | mutation
  | subscription
deriving DecidableEq

/-- An operation, possibly anonymous. -/
structure Operation where
  description : Option StringLiteral
  kind : OperationKind
  name : Option Name
  variableDefinitions : List VariableDefinition
  directives : List Directive
  selections : List Selection

/-- A fragment that spreads can name. -/
structure FragmentDefinition where
  description : Option StringLiteral
  name : Name
  typeCondition : Name
  directives : List Directive
  selections : List Selection

/--
A definition of a document. Definitions of the type system are read but carry nothing, because
nothing that is done with a document looks into them.
-/
inductive Definition
  | operation (operation : Operation)
  | fragment (fragment : FragmentDefinition)
  | typeSystem

/-- A document: its definitions in source order. -/
structure Document where
  definitions : List Definition

namespace Selection

/-- The selection set of a node; a spread has none. -/
def selections? : Selection → Option (List Selection)
  | .node _ selections => selections
  | .spread _ _ => none

/-- The same selection with another selection set; a spread stays as it is. -/
def withSelections? (selections : Option (List Selection)) : Selection → Selection
  | .node head _ => .node head selections
  | .spread name directives => .spread name directives

end Selection

/-- The same operation with other selections. -/
def Operation.withSelections (operation : Operation) (selections : List Selection) : Operation :=
  { operation with selections }

/-- The same fragment with other selections. -/
def FragmentDefinition.withSelections (fragment : FragmentDefinition)
    (selections : List Selection) : FragmentDefinition :=
  { fragment with selections }

namespace Definition

/-- The operation that a definition is, if it is one. -/
def operation? : Definition → Option Operation
  | .operation found => some found
  | _ => none

/-- The fragment that a definition is, if it is one. -/
def fragment? : Definition → Option FragmentDefinition
  | .fragment found => some found
  | _ => none

/-- The selections of a definition; one of the type system has none. -/
def selections : Definition → List Selection
  | .operation found => found.selections
  | .fragment found => found.selections
  | .typeSystem => []

/-- The same definition with other selections; one of the type system stays as it is. -/
def withSelections (selections : List Selection) : Definition → Definition
  | .operation found => .operation (found.withSelections selections)
  | .fragment found => .fragment (found.withSelections selections)
  | .typeSystem => .typeSystem

end Definition

namespace Document

/-- The operations of a document, in source order. -/
def operations (document : Document) : List Operation :=
  document.definitions.filterMap Definition.operation?

/-- The fragments of a document, in source order, repeated names included. -/
def fragments (document : Document) : List FragmentDefinition :=
  document.definitions.filterMap Definition.fragment?

/-- The document that holds the given operations and nothing else. -/
def ofOperations (operations : List Operation) : Document :=
  ⟨operations.map Definition.operation⟩

/-- The selections of the first definition, if there is a definition. -/
def firstSelections? (document : Document) : Option (List Selection) :=
  document.definitions.head?.map Definition.selections

@[simp]
theorem operations_ofOperations (operations : List Operation) :
    (ofOperations operations).operations = operations := by
  simp [ofOperations, Document.operations, List.filterMap_map, Function.comp_def,
    Definition.operation?]

@[simp]
theorem fragments_ofOperations (operations : List Operation) :
    (ofOperations operations).fragments = [] := by
  simp [ofOperations, Document.fragments, List.filterMap_map, Function.comp_def,
    Definition.fragment?]

end Document

end QueryPrep.Graphql
