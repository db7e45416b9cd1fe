import QueryPrep.Proofs.Merge.Batches

/-!
# Merging from the top down

The plain description of merged siblings takes a whole tree and goes through it once, from the top
down: at every level the selections of a key become their first one, and their sets become one set
for the next level. Nothing is merged twice, and nothing is left as it was because it is alone with
its key.

`mergeSelections` leaves a selection that is alone as it is. It comes to the same as the plain
description once the sets below the siblings have been merged before, which is how the sets of a
tree are merged from the bottom up.
-/

namespace QueryPrep.Graphql

open Selection

theorem nestingEach_joinSets_withKey_lt {first : Selection} {rest set : List Selection}
    (joined : joinSets (first :: withKey first.key rest) = some set) :
    nestingEach set < nestingEach (first :: rest) := by
  apply nestingEach_joinSets_lt _ joined
  intro member present
  apply nestingEach_le_iff.mp (Nat.le_refl _)
  rcases List.mem_cons.mp present with rfl | later
  · exact List.mem_cons_self
  · exact List.mem_cons_of_mem _ (mem_withKey.mp later).1

theorem nestingEach_withoutKey_le (first : Selection) (rest : List Selection) :
    nestingEach (withoutKey first.key rest) ≤ nestingEach (first :: rest) := by
  apply nestingEach_le_iff.mpr
  intro member present
  apply nestingEach_le_iff.mp (Nat.le_refl _)
  exact List.mem_cons_of_mem _ (mem_withoutKey.mp present).1

/--
Siblings merged from the top down: of each group with the same key the first selection is left, and
below it all sets of the group, put together, are merged in the same manner.
-/
def deepMerge : List Selection → List Selection
  | [] => []
  | first :: rest =>
      first.withSelections? (match joined : joinSets (first :: withKey first.key rest) with
        | none => none
        | some set =>
            have := nestingEach_joinSets_withKey_lt joined
            some (deepMerge set)) ::
      deepMerge (withoutKey first.key rest)
termination_by siblings => (nestingEach siblings, siblings.length)
decreasing_by
  · exact Prod.Lex.left _ _ this
  · apply Prod.Lex.right' _ (nestingEach_withoutKey_le first rest)
    exact Nat.lt_succ_of_le (List.length_filter_le _ _)

/-- A group with everything below it merged. -/
def deepGroup (first : Selection) (others : List Selection) : Selection :=
  first.withSelections? ((joinSets (first :: others)).map deepMerge)

theorem deepMerge_eq_groupWith (siblings : List Selection) :
    deepMerge siblings = groupWith deepGroup siblings := by
  fun_induction groupWith deepGroup siblings with
  | case1 => rw [deepMerge]
  | case2 first rest ih =>
      rw [deepMerge, ih, deepGroup]
      congr 2
      split
      case h_1 joined => simp [joined]
      case h_2 set joined => simp [joined]

theorem deepMerge_cons (first : Selection) (rest : List Selection) :
    deepMerge (first :: rest) =
      deepGroup first (withKey first.key rest) :: deepMerge (withoutKey first.key rest) := by
  rw [deepMerge_eq_groupWith, groupWith, ← deepMerge_eq_groupWith]

theorem keepsKeys_deepGroup : KeepsKeys deepGroup :=
  fun first _ => first.key_withSelections? _

/-- A selection with its own set merged from the top down, if it has one. -/
def Selection.mergeBelow (selection : Selection) : Selection :=
  selection.withSelections? (selection.selections?.map deepMerge)

@[simp]
theorem Selection.key_mergeBelow (selection : Selection) :
    selection.mergeBelow.key = selection.key :=
  selection.key_withSelections? _

theorem Selection.selections?_mergeBelow (selection : Selection) :
    selection.mergeBelow.selections? = selection.selections?.map deepMerge := by
  cases selection <;> rfl

theorem mergeSelections_flatten_map_deepMerge {sets : List (List Selection)}
    (each : ∀ set ∈ sets, deepMerge set = mergeSelections (set.map mergeBelow)) :
    mergeSelections (sets.map deepMerge).flatten =
      mergeSelections (sets.flatten.map mergeBelow) := by
  have merged : sets.map deepMerge = (sets.map (List.map mergeBelow)).map mergeSelections := by
    rw [List.map_map]
    exact List.map_congr_left each
  rw [merged, mergeSelections_flatten_map, List.map_flatten]

theorem map_joinSets_map_mergeBelow {group : List Selection} {depth : Nat}
    (bounded : ∀ member ∈ group, member.nesting ≤ depth)
    (lower : ∀ set, nestingEach set < depth →
      deepMerge set = mergeSelections (set.map mergeBelow)) :
    (joinSets (group.map mergeBelow)).map mergeSelections = (joinSets group).map deepMerge := by
  have sets : (group.map mergeBelow).filterMap selections? =
      (group.filterMap selections?).map deepMerge := by
    rw [List.filterMap_map, List.map_filterMap]
    congr 1
    funext selection
    exact selection.selections?_mergeBelow
  have below := fun set (joined : joinSets group = some set) =>
    nestingEach_joinSets_lt bounded joined
  simp only [joinSets, sets] at below ⊢
  cases held : group.filterMap selections? with
  | nil => rfl
  | cons first rest =>
      rw [held] at below
      have joinedBelow := below _ rfl
      simp only [List.map_cons, Option.map_some, Option.some.injEq]
      rw [← List.map_cons, mergeSelections_flatten_map_deepMerge, lower _ joinedBelow]
      intro set present
      apply lower
      apply Nat.lt_of_le_of_lt _ joinedBelow
      apply nestingEach_le_iff.mpr
      intro member inSet
      exact nestingEach_le_iff.mp (Nat.le_refl _) member (List.mem_flatten_of_mem present inSet)

theorem deepMerge_eq_mergeSelections_of_nesting (depth : Nat) {siblings : List Selection}
    (bounded : nestingEach siblings ≤ depth) :
    deepMerge siblings = mergeSelections (siblings.map mergeBelow) := by
  induction depth using Nat.strongRecOn generalizing siblings with
  | ind depth ih =>
      rw [deepMerge_eq_groupWith, mergeSelections_eq_groupWith, groupWith_map key_mergeBelow]
      apply groupWith_congr
      intro first others members _
      rcases others with _ | ⟨second, others⟩
      · rw [deepGroup, joinSets_singleton]
        rfl
      · have groupBounded : ∀ member ∈ first :: second :: others, member.nesting ≤ depth :=
          fun member present => nestingEach_le_iff.mp bounded member (members member present)
        rw [List.map_cons, mergeGroup, ← List.map_cons, ← List.map_cons,
          map_joinSets_map_mergeBelow groupBounded fun _ below => ih _ below (Nat.le_refl _),
          deepGroup]
        cases first <;> rfl

/-- Merging from the top down is merging from the bottom up. -/
theorem deepMerge_eq_mergeSelections (siblings : List Selection) :
    deepMerge siblings = mergeSelections (siblings.map mergeBelow) :=
  deepMerge_eq_mergeSelections_of_nesting _ (Nat.le_refl _)

end QueryPrep.Graphql
