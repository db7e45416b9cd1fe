import QueryPrep.Merge.SelectionKey

/-!
# Merging sibling selections

Siblings are taken one by one. The first of a key stays where it is and keeps everything but its
selection set; a later one of the same key only adds its selection set, and the two sets together
are merged in turn. A selection that is alone with its key is left untouched, so its own set has
to be merged already if the result is to be.

Two sets that are merged lie one level deeper than the nodes that hold them. The nesting depth of
the siblings therefore bounds the recursion.
-/

namespace QueryPrep.Graphql

namespace Selection

mutual

/-- How many levels of selection sets lie below a selection. -/
def nesting : Selection → Nat
  | .node _ none => 0
  | .node _ (some selections) => nestingEach selections + 1
  | .spread _ _ => 0

/-- How many levels of selection sets lie below any of the selections. -/
def nestingEach : List Selection → Nat
  | [] => 0
  | selection :: rest => max selection.nesting (nestingEach rest)

end

/--
The first of two selections with the same key, after the second has added its selection set.
`merge` merges the selections of both sets; it is not needed while neither has one.
-/
def absorb (merge : List Selection → List Selection) : Selection → Selection → Selection
  | .node head none, .node _ none => .node head none
  | .node head mine, .node _ theirs => .node head (some (merge (mine.getD [] ++ theirs.getD [])))
  | existing, _ => existing

/-- Whatever a selection absorbs, it keeps its key. -/
theorem key_absorb (merge : List Selection → List Selection) (existing selection : Selection) :
    (existing.absorb merge selection).key = existing.key := by
  cases existing with
  | spread name directives => rfl
  | node head mine => cases mine <;> cases selection with
    | spread name directives => rfl
    | node other theirs => cases theirs <;> rfl

end Selection

/-- A selection with its key, which is found once and compared often. -/
structure KeyedSelection where
  selection : Selection
  key : String
  key_eq : key = selection.key

/-- A selection with its key. -/
def Selection.keyed (selection : Selection) : KeyedSelection :=
  ⟨selection, selection.key, rfl⟩

/-- Merged siblings with one more selection: absorbed if its key is there, else put last. -/
def insertKeyed (merge : List Selection → List Selection) (entry : KeyedSelection) :
    List KeyedSelection → List KeyedSelection
  | [] => [entry]
  | first :: rest =>
    if first.key = entry.key then
      ⟨first.selection.absorb merge entry.selection, first.key,
        first.key_eq.trans (first.selection.key_absorb merge entry.selection).symm⟩ :: rest
    else first :: insertKeyed merge entry rest

/-- The same for siblings whose keys are not at hand. -/
def insertSelection (merge : List Selection → List Selection) (selection : Selection) :
    List Selection → List Selection
  | [] => [selection]
  | first :: rest =>
    if first.key = selection.key then first.absorb merge selection :: rest
    else first :: insertSelection merge selection rest

/-- Keys at hand make no difference to the siblings. -/
theorem map_insertKeyed (merge : List Selection → List Selection) (entry : KeyedSelection)
    (merged : List KeyedSelection) :
    (insertKeyed merge entry merged).map KeyedSelection.selection =
      insertSelection merge entry.selection (merged.map KeyedSelection.selection) := by
  induction merged with
  | nil => rfl
  | cons first rest ih =>
    simp only [insertKeyed, List.map_cons, insertSelection, first.key_eq, entry.key_eq]
    split
    case isTrue => rfl
    case isFalse => rw [List.map_cons, ih]

/-- One level of siblings, merged; `merge` is used for the sets that come together below them. -/
def mergeLevel (merge : List Selection → List Selection) (selections : List Selection) :
    List Selection :=
  (selections.foldl (fun merged selection => insertKeyed merge selection.keyed merged) []).map
    KeyedSelection.selection

/-- One level is merged by inserting its selections one after the other. -/
theorem mergeLevel_eq_foldl (merge : List Selection → List Selection)
    (selections : List Selection) :
    mergeLevel merge selections =
      selections.foldl (fun merged selection => insertSelection merge selection merged) [] := by
  have general : ∀ merged : List KeyedSelection,
      (selections.foldl (fun merged selection =>
        insertKeyed merge selection.keyed merged) merged).map KeyedSelection.selection =
        selections.foldl (fun merged selection => insertSelection merge selection merged)
          (merged.map KeyedSelection.selection) := by
    induction selections with
    | nil => intro merged; rfl
    | cons selection rest ih =>
      intro merged
      rw [List.foldl_cons, List.foldl_cons, ih, map_insertKeyed]
      rfl
  exact general []

/-- Siblings with at most `depth` levels of selection sets below them, merged. -/
def mergeWithin : (depth : Nat) → List Selection → List Selection
  | 0 => mergeLevel id
  | depth + 1 => mergeLevel (mergeWithin depth)

/-- Sibling selections, merged. -/
def mergeSelections (selections : List Selection) : List Selection :=
  mergeWithin (Selection.nestingEach selections) selections

/-- Two selection sets merged into one; it is missing only if both are. -/
def mergeSelectionSets : Option (List Selection) → Option (List Selection) →
    Option (List Selection)
  | none, none => none
  | first, second => some (mergeSelections (first.getD [] ++ second.getD []))

end QueryPrep.Graphql
