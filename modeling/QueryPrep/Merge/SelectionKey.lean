import QueryPrep.Graphql.Printer
import QueryPrep.Merge.ArgumentKey

/-!
# Selection keys

Sibling selections with the same key are one request. A field is keyed by the name that the
response uses for it and by its arguments, an inline fragment by its type condition, and a spread
by the way it is printed. A colon is no name character, so the three kinds never share a key.
-/

namespace QueryPrep.Graphql

/-- The key of a node, its selection set apart. Directives have no part in it. -/
def Head.key : Head → String
  | .field label name arguments _ => (label.getD name).text ++ argumentKey arguments
  | .inlineFragment typeCondition _ => "inline:" ++ (typeCondition.map Name.text).getD ""

/-- The key of a selection. -/
def Selection.key : Selection → String
  | .node head _ => head.key
  | .spread name directives => "other:fragment_spread:" ++ printSpread name directives

/-- The arguments of a field; no other selection has any. -/
def Selection.arguments : Selection → List Argument
  | .node (.field _ _ arguments _) _ => arguments
  | _ => []

@[simp]
theorem Selection.key_node (head : Head) (selections : Option (List Selection)) :
    (node head selections).key = head.key := rfl

@[simp]
theorem Selection.key_spread (name : Name) (directives : List Directive) :
    (spread name directives).key = "other:fragment_spread:" ++ printSpread name directives := rfl

@[simp]
theorem Selection.key_withSelections? (selections : Option (List Selection))
    (selection : Selection) : (selection.withSelections? selections).key = selection.key := by
  cases selection <;> rfl

end QueryPrep.Graphql
