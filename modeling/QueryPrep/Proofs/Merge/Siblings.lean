import QueryPrep.Proofs.Merge.Batches

/-!
# What merging makes of siblings

Merging compares each sibling with what has been merged before it. Nothing of that shows in the
result: it holds one entry for every key, which depends on the siblings with that key and on no
others. In particular, siblings of different kinds do not see each other.
-/

namespace QueryPrep.Graphql

/-- The kinds of selections. -/
inductive SelectionKind
  | field
  | inlineFragment
  | spread
deriving DecidableEq

namespace Selection

/-- What kind of selection it is. -/
def kind : Selection → SelectionKind
  | .node (.field _ _ _ _) _ => .field
  | .node (.inlineFragment _ _) _ => .inlineFragment
  | .spread _ _ => .spread

theorem SameRequest.kind_eq {first second : Selection} (same : first.SameRequest second) :
    first.kind = second.kind := by
  rcases first with ⟨_ | _, _⟩ | _ <;> rcases second with ⟨_ | _, _⟩ | _ <;>
    first | rfl | exact same.elim

theorem withSelections?_none {selection : Selection} (without : selection.selections? = none) :
    selection.withSelections? none = selection := by
  cases selection with
  | spread name directives => rfl
  | node head set =>
      rw [selections?] at without
      rw [without, withSelections?]

end Selection

/--
Two selections have the same key exactly if they ask for the same thing, which takes selections of
the same kind. So what is merged of one kind is the same as without the siblings of other kinds.
-/
theorem key_eq_iff_and_filter_kind_mergeSelections :
    (∀ first second : Selection, first.key = second.key ↔ first.SameRequest second) ∧
      ∀ kind siblings,
        (mergeSelections siblings).filter (·.kind == kind) =
          mergeSelections (siblings.filter (·.kind == kind)) := by
  refine ⟨fun _ _ => Selection.key_eq_iff_sameRequest, ?_⟩
  intro kind siblings
  rw [mergeSelections_eq_groupWith, mergeSelections_eq_groupWith]
  apply filter_groupWith keepsKeys_mergeGroup
  intro first second sameKey
  have same := (Selection.key_eq_iff_sameRequest.mp sameKey).kind_eq
  rw [same]

/--
All siblings with one key as one selection. The first of them stays as it is if it is the only one
or if none of them has a selection set. If there are sets, it gets the selections of all of them,
merged.
-/
def mergeOccurrences : List Selection → List Selection
  | [] => []
  | [only] => [only]
  | first :: others =>
      match (first :: others).filterMap Selection.selections? with
      | [] => [first]
      | sets => [first.withSelections? (some (mergeSelections sets.flatten))]

theorem mergeOccurrences_cons (first : Selection) (others : List Selection) :
    mergeOccurrences (first :: others) = [mergeGroup first others] := by
  cases others with
  | nil => rfl
  | cons second others =>
      rw [mergeOccurrences, mergeGroup, joinSets]
      · cases sets : (first :: second :: others).filterMap Selection.selections? with
        | nil =>
            have without : first.selections? = none := by
              simp only [List.filterMap_eq_nil_iff] at sets
              exact sets first List.mem_cons_self
            simp [Selection.withSelections?_none without]
        | cons set sets => rfl
      · simp

/--
Merged siblings hold each key once, in the order in which the keys first occur, and the entry of a
key is made of all siblings with that key at once.
-/
theorem mergeSelections_grouped (siblings : List Selection) :
    (mergeSelections siblings).map Selection.key = (siblings.map Selection.key).eraseDups ∧
      ∀ key, withKey key (mergeSelections siblings) = mergeOccurrences (withKey key siblings) := by
  rw [mergeSelections_eq_groupWith]
  refine ⟨map_key_groupWith keepsKeys_mergeGroup siblings, ?_⟩
  intro key
  cases occurrences : withKey key siblings with
  | nil => exact withKey_groupWith_of_eq_nil keepsKeys_mergeGroup occurrences
  | cons first others =>
      rw [mergeOccurrences_cons]
      exact withKey_groupWith_of_eq_cons keepsKeys_mergeGroup occurrences

end QueryPrep.Graphql
