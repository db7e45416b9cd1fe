import QueryPrep.Graphql.Syntax

/-!
# Canonical values

What a value asks for, without the ways of writing it. Numbers, words and strings become their
text, the fields of an object are sorted by name, and of a repeated field only the last value
counts. Variables stay apart from everything else.
-/

namespace QueryPrep.Graphql

/-- A value up to its spelling. The fields of an object have distinct names in increasing order. -/
inductive CanonicalValue
  | null
  | boolean (value : Bool)
  | text (value : String)
  | variable (name : Name)
  | list (values : List CanonicalValue)
  | object (fields : List (Name × CanonicalValue))

namespace CanonicalValue

/-- Fields sorted by name, with one more in its place; an earlier value of the same name is lost. -/
def putField (field : Name × CanonicalValue) :
    List (Name × CanonicalValue) → List (Name × CanonicalValue)
  | [] => [field]
  | first :: rest =>
    if field.1 = first.1 then field :: rest
    else if field.1.text < first.1.text then field :: first :: rest
    else first :: putField field rest

/-- Fields in any order, sorted by name; the last value of a name wins. -/
def sortFields (fields : List (Name × CanonicalValue)) : List (Name × CanonicalValue) :=
  fields.foldl (fun sorted field => putField field sorted) []

end CanonicalValue

namespace Value

mutual

/-- The canonical form of a value. -/
def canonical : Value → CanonicalValue
  | .variable name => .variable name
  | .int text => .text text
  | .float text => .text text
  | .string literal => .text literal.value
  | .boolean value => .boolean value
  | .null => .null
  | .enum name => .text name.text
  | .list values => .list (canonicalEach values)
  | .object fields => .object (CanonicalValue.sortFields (canonicalFields fields))

/-- The canonical form of every value of a list. -/
def canonicalEach : List Value → List CanonicalValue
  | [] => []
  | value :: rest => value.canonical :: canonicalEach rest

/-- The fields of an object as they are written, with the canonical form of every value. -/
def canonicalFields : List (Name × Value) → List (Name × CanonicalValue)
  | [] => []
  | (name, value) :: rest => (name, value.canonical) :: canonicalFields rest

end

theorem canonicalFields_eq_map (fields : List (Name × Value)) :
    canonicalFields fields = fields.map fun field => (field.1, field.2.canonical) := by
  induction fields with
  | nil => rfl
  | cons field rest ih => simp [canonicalFields, ih]

end Value

end QueryPrep.Graphql
