import QueryPrep.Proofs.Merge.Grouping
import QueryPrep.Proofs.Merge.KeyKinds
import Mathlib.Data.List.Induction

/-!
# Merging in batches

Siblings may be merged all at once, or some of them first and the outcome with the rest. This file
proves that the result is the same. From the left that is little more than the way in which
merging goes through the siblings. From the right it needs an induction on the nesting depth,
because a selection set that comes in merged already is merged again one level further down.

On the way, the sets that one selection absorbs one after the other turn out to be merged as one
list. That gives the group of a key a description without any order of absorption (`mergeGroup`).

For whole selection sets the result says that uniting them is associative, a missing set being
neutral up to merging.
-/

namespace QueryPrep.Graphql

/-- All selection sets of a group as one set; it is missing only if none of the group has one. -/
def joinSets (group : List Selection) : Option (List Selection) :=
  match group.filterMap Selection.selections? with
  | [] => none
  | sets => some sets.flatten

/-- A group as one selection: the first of it, with the sets of all of it if there are others. -/
def mergeGroup (first : Selection) : List Selection → Selection
  | [] => first
  | second :: others =>
      first.withSelections? ((joinSets (first :: second :: others)).map mergeSelections)

section Sets

variable {group : List Selection}

theorem joinSets_append (first second : List Selection) :
    joinSets (first ++ second) = (joinSets first).merge (· ++ ·) (joinSets second) := by
  simp only [joinSets, List.filterMap_append]
  rcases first.filterMap Selection.selections? with _ | ⟨set, sets⟩ <;>
    rcases second.filterMap Selection.selections? with _ | ⟨other, others⟩ <;> simp

theorem joinSets_singleton (selection : Selection) :
    joinSets [selection] = selection.selections? := by
  cases set : selection.selections? <;> simp [joinSets, set]

theorem joinSets_cons (first : Selection) (others : List Selection) :
    joinSets (first :: others) = first.selections?.merge (· ++ ·) (joinSets others) := by
  rw [← List.singleton_append, joinSets_append, joinSets_singleton]

theorem joinSets_eq_none (without : ∀ member ∈ group, member.selections? = none) :
    joinSets group = none := by
  have empty : group.filterMap Selection.selections? = [] := by simpa using without
  simp [joinSets, empty]

theorem joinSets_eq_none_of_spread {name : Name} {directives : List Directive}
    (sameKey : ∀ member ∈ group, member.key = (Selection.spread name directives).key) :
    joinSets (.spread name directives :: group) = none := by
  apply joinSets_eq_none
  intro member present
  rcases List.mem_cons.mp present with rfl | later
  · rfl
  · cases member with
    | node head set => exact absurd (sameKey _ later).symm (Selection.key_spread_ne_key_node _ _)
    | spread other others => rfl

/-- Absorbing is merging the sets of both, as long as both are of the same kind. -/
theorem absorb_eq (merge : List Selection → List Selection) {existing selection : Selection}
    (sameKey : selection.key = existing.key) :
    existing.absorb merge selection =
      existing.withSelections? ((joinSets [existing, selection]).map merge) := by
  rw [joinSets_cons, joinSets_singleton]
  cases existing with
  | spread name directives => rfl
  | node head mine =>
      cases selection with
      | spread name directives => exact absurd sameKey (Selection.key_spread_ne_key_node _ _)
      | node other theirs => cases mine <;> cases theirs <;> simp [Selection.absorb,
          Selection.selections?, Selection.withSelections?]

theorem selections?_withSelections?_joinSets (change : List Selection → List Selection)
    {first : Selection} (sameKey : ∀ member ∈ group, member.key = first.key) :
    (first.withSelections? ((joinSets (first :: group)).map change)).selections? =
      (joinSets (first :: group)).map change := by
  cases first with
  | node head set => rfl
  | spread name directives => rw [joinSets_eq_none_of_spread sameKey]; rfl

end Sets

section Left

theorem nodup_map_key_mergeSelections (siblings : List Selection) :
    ((mergeSelections siblings).map Selection.key).Nodup := by
  rw [mergeSelections_eq_mergeLevel, mergeLevel_eq_groupWith]
  exact nodup_map_key_groupWith keepsKeys_absorbEach siblings

@[simp]
theorem mergeSelections_mergeSelections (siblings : List Selection) :
    mergeSelections (mergeSelections siblings) = mergeSelections siblings := by
  rw [mergeSelections_eq_mergeLevel (mergeSelections siblings)]
  exact mergeLevel_eq_self (nodup_map_key_mergeSelections siblings)

theorem mergeSelections_eq_foldl (siblings : List Selection) :
    mergeSelections siblings =
      siblings.foldl
        (fun merged selection => insertSelection mergeSelections selection merged) [] := by
  rw [mergeSelections_eq_mergeLevel, mergeLevel_eq_foldl]

theorem mergeSelections_append (before after : List Selection) :
    mergeSelections (before ++ after) =
      after.foldl (fun merged selection => insertSelection mergeSelections selection merged)
        (mergeSelections before) := by
  rw [mergeSelections_eq_foldl, List.foldl_append, ← mergeSelections_eq_foldl]

theorem mergeSelections_merged_append (before after : List Selection) :
    mergeSelections (mergeSelections before ++ after) = mergeSelections (before ++ after) := by
  rw [mergeSelections_append, mergeSelections_append, mergeSelections_mergeSelections]

end Left

theorem map_merge_map_left (mine theirs : Option (List Selection)) :
    ((mine.map mergeSelections).merge (· ++ ·) theirs).map mergeSelections =
      (mine.merge (· ++ ·) theirs).map mergeSelections := by
  cases mine <;> cases theirs <;> simp [mergeSelections_merged_append]

/-- Absorbing a group one by one merges all of its sets at once. -/
theorem absorbEach_eq_mergeGroup {first : Selection} {others : List Selection}
    (sameKey : ∀ member ∈ others, member.key = first.key) :
    absorbEach mergeSelections first others = mergeGroup first others := by
  induction others using List.reverseRecOn with
  | nil => rfl
  | append_singleton others last ih =>
      have earlier : ∀ member ∈ others, member.key = first.key :=
        fun member present => sameKey member (List.mem_append_left _ present)
      have lastKey : last.key = (mergeGroup first others).key := by
        rw [← ih earlier, keepsKeys_absorbEach]
        exact sameKey last (by simp)
      rw [absorbEach, List.foldl_append, List.foldl_cons, List.foldl_nil, ← absorbEach,
        ih earlier, absorb_eq _ lastKey, joinSets_cons, joinSets_singleton]
      rcases others with _ | ⟨second, others⟩
      · rw [List.nil_append, mergeGroup, mergeGroup, joinSets_cons, joinSets_singleton]
      · rw [List.cons_append, mergeGroup, mergeGroup,
          selections?_withSelections?_joinSets _ earlier, map_merge_map_left,
          ← joinSets_singleton last, ← joinSets_append]
        cases first <;> rfl

/-- Merging makes one selection of every group, with the merged sets of the whole group. -/
theorem mergeSelections_eq_groupWith (siblings : List Selection) :
    mergeSelections siblings = groupWith mergeGroup siblings := by
  rw [mergeSelections_eq_mergeLevel, mergeLevel_eq_groupWith]
  apply groupWith_congr
  intro first others _ sameKey
  exact absorbEach_eq_mergeGroup sameKey

theorem keepsKeys_mergeGroup : KeepsKeys mergeGroup := by
  intro first others
  cases others with
  | nil => rfl
  | cons second others => exact Selection.key_withSelections? _ _

section Nesting

open Selection

theorem nestingEach_le_iff {siblings : List Selection} {depth : Nat} :
    nestingEach siblings ≤ depth ↔ ∀ member ∈ siblings, member.nesting ≤ depth := by
  induction siblings with
  | nil => simp [nestingEach]
  | cons first rest ih => rw [nestingEach, Nat.max_le, ih, List.forall_mem_cons]

theorem nestingEach_joinSets_lt {group : List Selection} {set : List Selection} {depth : Nat}
    (bounded : ∀ member ∈ group, member.nesting ≤ depth) (joined : joinSets group = some set) :
    nestingEach set < depth := by
  induction group generalizing set with
  | nil => simp [joinSets] at joined
  | cons first others ih =>
      have othersBounded := fun member present => bounded member (List.mem_cons_of_mem _ present)
      rw [joinSets_cons] at joined
      cases first with
      | spread name directives =>
          apply ih othersBounded
          simpa [selections?] using joined
      | node head mine =>
          have firstBounded := bounded (.node head mine) List.mem_cons_self
          cases mine with
          | none =>
              apply ih othersBounded
              simpa [selections?] using joined
          | some mine =>
              rw [nesting] at firstBounded
              cases theirs : joinSets others with
              | none =>
                  simp only [selections?, theirs, Option.merge_none_right,
                    Option.some.injEq] at joined
                  subst set
                  omega
              | some theirSet =>
                  have othersBelow := ih othersBounded theirs
                  simp only [selections?, theirs, Option.merge_some_some,
                    Option.some.injEq] at joined
                  subst set
                  rw [nestingEach_append]
                  omega

end Nesting

section Right

open Selection

theorem map_merge_map_right {mine theirs : Option (List Selection)}
    (absorbs : ∀ first second, mine = some first → theirs = some second →
      mergeSelections (first ++ mergeSelections second) = mergeSelections (first ++ second)) :
    (mine.merge (· ++ ·) (theirs.map mergeSelections)).map mergeSelections =
      (mine.merge (· ++ ·) theirs).map mergeSelections := by
  cases mine with
  | none => cases theirs <;> simp
  | some first =>
      cases theirs with
      | none => rfl
      | some second => simp [absorbs first second rfl rfl]

/-- A sibling absorbs a merged group as it absorbs the selections of the group one by one. -/
theorem absorb_mergeGroup {existing first : Selection} {others : List Selection} {depth : Nat}
    (absorbs : ∀ before after, nestingEach before < depth → nestingEach after < depth →
      mergeSelections (before ++ mergeSelections after) = mergeSelections (before ++ after))
    (bounded : existing.nesting ≤ depth)
    (othersBounded : ∀ member ∈ first :: others, member.nesting ≤ depth)
    (sameKey : ∀ member ∈ first :: others, member.key = existing.key) :
    existing.absorb mergeSelections (mergeGroup first others) =
      absorbEach mergeSelections existing (first :: others) := by
  rcases others with _ | ⟨second, others⟩
  · rfl
  · have firstKey : first.key = existing.key := sameKey first List.mem_cons_self
    have othersKey : ∀ member ∈ second :: others, member.key = first.key := by
      intro member present
      rw [firstKey]
      exact sameKey member (List.mem_cons_of_mem _ present)
    rw [absorbEach_eq_mergeGroup sameKey, absorb_eq, mergeGroup, mergeGroup, joinSets_cons,
      joinSets_singleton, selections?_withSelections?_joinSets _ othersKey, joinSets_cons existing,
      map_merge_map_right]
    · intro mine theirs mineHeld theirsHeld
      apply absorbs mine theirs
      · have alone : ∀ member ∈ [existing], member.nesting ≤ depth := by simpa using bounded
        exact nestingEach_joinSets_lt alone ((joinSets_singleton existing).trans mineHeld)
      · exact nestingEach_joinSets_lt othersBounded theirsHeld
    · rw [mergeGroup, key_withSelections?]
      exact firstKey

theorem foldl_absorb_withKey_mergeSelections {existing : Selection} {siblings : List Selection}
    {depth : Nat}
    (absorbs : ∀ before after, nestingEach before < depth → nestingEach after < depth →
      mergeSelections (before ++ mergeSelections after) = mergeSelections (before ++ after))
    (bounded : existing.nesting ≤ depth) (siblingsBounded : nestingEach siblings ≤ depth) :
    absorbEach mergeSelections existing (withKey existing.key (mergeSelections siblings)) =
      absorbEach mergeSelections existing (withKey existing.key siblings) := by
  rw [mergeSelections_eq_groupWith]
  cases group : withKey existing.key siblings with
  | nil => rw [withKey_groupWith_of_eq_nil keepsKeys_mergeGroup group]
  | cons first others =>
      have members : ∀ member ∈ first :: others,
          member ∈ siblings ∧ member.key = existing.key := by
        intro member present
        rw [← group] at present
        exact mem_withKey.mp present
      rw [withKey_groupWith_of_eq_cons keepsKeys_mergeGroup group, absorbEach, List.foldl_cons,
        List.foldl_nil]
      apply absorb_mergeGroup absorbs bounded
      · intro member present
        exact nestingEach_le_iff.mp siblingsBounded member (members member present).1
      · intro member present
        exact (members member present).2

theorem withoutKey_mergeSelections (key : String) (siblings : List Selection) :
    withoutKey key (mergeSelections siblings) = mergeSelections (withoutKey key siblings) := by
  rw [mergeSelections_eq_groupWith, mergeSelections_eq_groupWith,
    withoutKey_groupWith keepsKeys_mergeGroup]

theorem foldl_insertSelection_mergeSelections {merged siblings : List Selection} {depth : Nat}
    (absorbs : ∀ before after, nestingEach before < depth → nestingEach after < depth →
      mergeSelections (before ++ mergeSelections after) = mergeSelections (before ++ after))
    (mergedBounded : nestingEach merged ≤ depth) (bounded : nestingEach siblings ≤ depth) :
    (mergeSelections siblings).foldl
        (fun merged selection => insertSelection mergeSelections selection merged) merged =
      siblings.foldl
        (fun merged selection => insertSelection mergeSelections selection merged) merged := by
  induction merged generalizing siblings with
  | nil =>
      rw [← mergeSelections_eq_foldl, ← mergeSelections_eq_foldl, mergeSelections_mergeSelections]
  | cons existing rest ih =>
      simp only [nestingEach, Nat.max_le] at mergedBounded
      have restBounded : nestingEach (withoutKey existing.key siblings) ≤ depth := by
        apply nestingEach_le_iff.mpr
        intro member present
        exact nestingEach_le_iff.mp bounded member (mem_withoutKey.mp present).1
      rw [foldl_insertSelection_cons, foldl_insertSelection_cons, ← absorbEach, ← absorbEach,
        foldl_absorb_withKey_mergeSelections absorbs mergedBounded.1 bounded,
        withoutKey_mergeSelections, ih mergedBounded.2 restBounded]

theorem mergeSelections_append_merged_of_nesting (depth : Nat) {before after : List Selection}
    (bounded : nestingEach before ≤ depth) (afterBounded : nestingEach after ≤ depth) :
    mergeSelections (before ++ mergeSelections after) = mergeSelections (before ++ after) := by
  induction depth using Nat.strongRecOn generalizing before after with
  | ind depth ih =>
      rw [mergeSelections_append, mergeSelections_append]
      have mergedBounded := Nat.le_trans (nestingEach_mergeSelections_le before) bounded
      apply foldl_insertSelection_mergeSelections _ mergedBounded afterBounded
      intro lowerBefore lowerAfter beforeBelow afterBelow
      have below := Nat.max_lt.mpr ⟨beforeBelow, afterBelow⟩
      exact ih _ below (Nat.le_max_left _ _) (Nat.le_max_right _ _)

end Right

/-- What comes last may be merged beforehand. -/
theorem mergeSelections_append_merged (before after : List Selection) :
    mergeSelections (before ++ mergeSelections after) = mergeSelections (before ++ after) :=
  mergeSelections_append_merged_of_nesting _ (Nat.le_max_left _ _) (Nat.le_max_right _ _)

theorem mergeSelections_append_congr {before other after another : List Selection}
    (sameBefore : mergeSelections before = mergeSelections other)
    (sameAfter : mergeSelections after = mergeSelections another) :
    mergeSelections (before ++ after) = mergeSelections (other ++ another) := by
  calc
    mergeSelections (before ++ after)
    _ = mergeSelections (mergeSelections before ++ mergeSelections after) := by
      rw [mergeSelections_append_merged, mergeSelections_merged_append]
    _ = mergeSelections (mergeSelections other ++ mergeSelections another) := by
      rw [sameBefore, sameAfter]
    _ = mergeSelections (other ++ another) := by
      rw [mergeSelections_append_merged, mergeSelections_merged_append]

/-- Batches may be merged on their own before they are merged with each other. -/
theorem mergeSelections_flatten_map (batches : List (List Selection)) :
    mergeSelections (batches.map mergeSelections).flatten = mergeSelections batches.flatten := by
  induction batches with
  | nil => rfl
  | cons batch rest ih =>
      rw [List.map_cons, List.flatten_cons, List.flatten_cons]
      exact mergeSelections_append_congr (mergeSelections_mergeSelections batch) ih

section Running

/-- What has been merged so far stands for all siblings that have gone into it. -/
theorem foldl_mergeSelections_append (siblings : List Selection)
    (batches : List (List Selection)) :
    batches.foldl (fun merged batch => mergeSelections (merged ++ batch))
        (mergeSelections siblings) =
      mergeSelections (siblings ++ batches.flatten) := by
  induction batches generalizing siblings with
  | nil => rw [List.foldl_nil, List.flatten_nil, List.append_nil]
  | cons batch rest ih =>
      rw [List.foldl_cons, mergeSelections_merged_append, ih, List.flatten_cons, List.append_assoc]

theorem mergeSelectionSets_eq (first second : Option (List Selection)) :
    mergeSelectionSets first second = (first.merge (· ++ ·) second).map mergeSelections := by
  cases first <;> cases second <;> simp [mergeSelectionSets]

theorem mergeSelectionSets_assoc (first second third : Option (List Selection)) :
    mergeSelectionSets (mergeSelectionSets first second) third =
      mergeSelectionSets first (mergeSelectionSets second third) := by
  have inner : ((first.merge (· ++ ·) second).merge (· ++ ·) third) =
      first.merge (· ++ ·) (second.merge (· ++ ·) third) :=
    Std.Associative.assoc first second third
  rw [mergeSelectionSets_eq, mergeSelectionSets_eq, mergeSelectionSets_eq, mergeSelectionSets_eq,
    map_merge_map_left, map_merge_map_right fun mine theirs _ _ =>
      mergeSelections_append_merged mine theirs, inner]

/--
It does not matter how siblings are batched. Two halves may be merged on their own first; batches
may go one after the other, merged before or not, into what has been merged so far; and selection
sets, missing ones included, may be united in any grouping.
-/
theorem mergeSelections_batched :
    (∀ before after, mergeSelections (mergeSelections before ++ mergeSelections after) =
        mergeSelections (before ++ after)) ∧
      (∀ batches : List (List Selection),
        batches.foldl (fun merged batch => mergeSelections (merged ++ batch)) [] =
            mergeSelections batches.flatten ∧
          batches.foldl (fun merged batch => mergeSelections (merged ++ mergeSelections batch)) [] =
            mergeSelections batches.flatten) ∧
      ∀ first second third,
        mergeSelectionSets (mergeSelectionSets first second) third =
          mergeSelectionSets first (mergeSelectionSets second third) := by
  have running (batches : List (List Selection)) :
      batches.foldl (fun merged batch => mergeSelections (merged ++ batch)) [] =
        mergeSelections batches.flatten := foldl_mergeSelections_append [] batches
  refine ⟨?_, ?_, mergeSelectionSets_assoc⟩
  · intro before after
    rw [mergeSelections_append_merged, mergeSelections_merged_append]
  · intro batches
    refine ⟨running batches, ?_⟩
    simp only [mergeSelections_append_merged]
    exact running batches

end Running

end QueryPrep.Graphql
