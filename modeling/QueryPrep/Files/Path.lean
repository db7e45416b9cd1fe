/-!
# Paths

A path leads from the root of a file tree downwards. Its text is split at the slashes; empty
components and single dots say nothing and are dropped, two dots lead back up. The root is in
itself, so two dots lead nowhere else from there.
-/

namespace QueryPrep.Files

/-- The names on the way from the root to a file or a directory. -/
abbrev Path := List String

/-- The pieces of a text between slashes. -/
def splitSlashes : List Char → List (List Char)
  | [] => [[]]
  | character :: rest =>
    if character = '/' then [] :: splitSlashes rest
    else
      match splitSlashes rest with
      | [] => [[character]]
      | piece :: pieces => (character :: piece) :: pieces

/-- A piece that says nothing. -/
def isIdle (piece : List Char) : Bool :=
  piece.isEmpty || piece == ['.']

/-- The steps that a path makes: down into a name, or up again with two dots. -/
def steps (text : String) : List String :=
  ((splitSlashes text.toList).filter (!isIdle ·)).map String.ofList

/-- The steps of a text that is read in a directory; a slash in front leads to the root instead. -/
def stepsFrom (directory : Path) (text : String) : List String :=
  if text.toList.head? = some '/' then steps text else directory ++ steps text

/-- Does the text insist on a directory, by ending in a slash or in a single dot? -/
def insistsOnDirectory (text : String) : Bool :=
  (splitSlashes text.toList).getLast?.any isIdle

/-- The path after one more step. -/
def follow (path : Path) (step : String) : Path :=
  if step = ".." then path.dropLast else path ++ [step]

/-- The path that steps lead to if two dots undo the step before, whatever there is in the tree. -/
def normalize (steps : List String) : Path :=
  steps.foldl follow []

/-- Two dots do not occur in a path, so that it only leads down. -/
def Canonical (path : Path) : Prop :=
  ".." ∉ path

instance (path : Path) : Decidable (Canonical path) :=
  inferInstanceAs (Decidable (".." ∉ path))

/-- The text of a path, which begins with the slash of the root. -/
def pathText (path : Path) : String :=
  "/" ++ String.intercalate "/" path

end QueryPrep.Files
