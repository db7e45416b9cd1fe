import QueryPrep.Graphql.Name

/-!
# Why fragments cannot be inlined
-/

namespace QueryPrep.Inline

/-- A reason why the spreads of a document cannot be replaced. -/
inductive InlineError
  /-- A spread names a fragment that the document does not define. -/
  | unresolved (name : String)
  /-- A fragment spreads itself. The path leads from the outermost fragment to the repeated name. -/
  | cyclic (path : List String)
  /-- Two fragments have the same name where that is forbidden. -/
  | duplicate (name : Graphql.Name)
deriving DecidableEq

/-- The message of an error. -/
def InlineError.message : InlineError → String
  | .unresolved name => "Fragment \"" ++ name ++ "\" not found"
  | .cyclic path => "Cyclic fragment reference: " ++ String.intercalate " -> " path
  | .duplicate name => "Fragment \"" ++ name.text ++ "\" is defined more than once"

end QueryPrep.Inline
