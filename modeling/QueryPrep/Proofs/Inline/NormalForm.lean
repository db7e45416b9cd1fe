import QueryPrep.Proofs.Inline.Refinement
import QueryPrep.Proofs.Merge.NormalForm

/-!
# The normal form of inlined documents

A substitution leaves no spread behind, because it only ends where a fragment without spreads has
been reached. Merging brings none in. So an inlined document holds operations and nothing else, and
they are merged throughout and free of spreads.
-/

namespace QueryPrep.Graphql.Selection

variable {name : String} {selection : Selection} {siblings before after : List Selection}

theorem mem_spreadsEach :
    name ∈ spreadsEach siblings ↔ ∃ selection ∈ siblings, name ∈ selection.spreads := by
  induction siblings with
  | nil => simp [spreadsEach]
  | cons first rest ih => simp [spreadsEach, ih]

@[simp]
theorem spreadsEach_append :
    spreadsEach (before ++ after) = spreadsEach before ++ spreadsEach after := by
  induction before with
  | nil => rfl
  | cons first rest ih => simp [spreadsEach, ih]

theorem mem_spreads_of_mem_below (below : name ∈ spreadsEach (selection.selections?.getD [])) :
    name ∈ selection.spreads := by
  cases selection with
  | spread name directives => simp [selections?, spreadsEach] at below
  | node head set =>
      cases set with
      | none => simp [selections?, spreadsEach] at below
      | some selections => exact below

theorem spreadsEach_subset (fewer : before ⊆ after) : spreadsEach before ⊆ spreadsEach after := by
  intro name spread
  rcases mem_spreadsEach.mp spread with ⟨selection, member, inSelection⟩
  exact mem_spreadsEach.mpr ⟨selection, fewer member, inSelection⟩

theorem spreadsEach_joinSets_subset {group set : List Selection}
    (joined : joinSets group = some set) :
    spreadsEach set ⊆ spreadsEach group := by
  intro name spread
  have same := getD_joinSets group
  rw [joined, Option.getD_some] at same
  rw [same, mem_spreadsEach] at spread
  rcases spread with ⟨selection, inSet, inSelection⟩
  rcases List.mem_flatMap.mp inSet with ⟨member, inGroup, inMember⟩
  apply mem_spreadsEach.mpr
  refine ⟨member, inGroup, mem_spreads_of_mem_below ?_⟩
  exact mem_spreadsEach.mpr ⟨selection, inMember, inSelection⟩

/-- Merging brings no spread in. -/
theorem spreadsEach_deepMerge_subset (siblings : List Selection) :
    spreadsEach (deepMerge siblings) ⊆ spreadsEach siblings := by
  induction siblings using deepMerge.induct with
  | case1 => simp [deepMerge]
  | case2 first rest lower others =>
      have group : first :: withKey first.key rest ⊆ first :: rest :=
        List.cons_subset_cons first fun _ member => (mem_withKey.mp member).1
      have remainder : withoutKey first.key rest ⊆ first :: rest :=
        List.subset_cons_of_subset first fun _ member => (mem_withoutKey.mp member).1
      rw [deepMerge_cons, spreadsEach]
      apply List.append_subset.mpr
      refine ⟨?_, List.Subset.trans others (spreadsEach_subset remainder)⟩
      cases first with
      | spread name directives => exact List.subset_append_left _ _
      | node head set =>
          rw [deepGroup, withSelections?]
          cases joined : joinSets (.node head set :: withKey (node head set).key rest) with
          | none => simp [spreads]
          | some joinedSet =>
              have inGroup := List.Subset.trans (lower joinedSet joined)
                (spreadsEach_joinSets_subset joined)
              exact List.Subset.trans inGroup (spreadsEach_subset group)

end QueryPrep.Graphql.Selection

namespace QueryPrep.Inline

open QueryPrep.Graphql Selection

section Spreads

variable {replace : String → Except InlineError (List Selection)} {map : FragmentMap}

mutual

theorem spreadsEach_of_substituteSelection {selection : Selection} {substituted : List Selection}
    (without : ∀ name replacement, replace name = .ok replacement → spreadsEach replacement = [])
    (succeeds : substituteSelection replace selection = .ok substituted) :
    spreadsEach substituted = [] := by
  cases selection with
  | spread name directives => exact without name.text substituted succeeds
  | node head set =>
      cases set with
      | none =>
          simp only [substituteSelection, pure, Except.pure, Except.ok.injEq] at succeeds
          subst substituted
          rfl
      | some selections =>
          rcases substituteSelection_node_eq_ok_iff.mp succeeds with ⟨below, belowSucceeds, rfl⟩
          simp [spreadsEach, spreads, spreadsEach_of_substituteEach without belowSucceeds]

theorem spreadsEach_of_substituteEach {selections substituted : List Selection}
    (without : ∀ name replacement, replace name = .ok replacement → spreadsEach replacement = [])
    (succeeds : substituteEach replace selections = .ok substituted) :
    spreadsEach substituted = [] := by
  cases selections with
  | nil =>
      simp only [substituteEach, pure, Except.pure, Except.ok.injEq] at succeeds
      subst substituted
      rfl
  | cons selection rest =>
      rcases substituteEach_cons_eq_ok_iff.mp succeeds with
        ⟨first, others, firstSucceeds, othersSucceed, rfl⟩
      rw [spreadsEach_append, spreadsEach_of_substituteSelection without firstSucceeds,
        spreadsEach_of_substituteEach without othersSucceed, List.nil_append]

end

theorem spreadsEach_of_substituteFragment {path : List String} {name : String}
    {substituted : List Selection}
    (succeeds : substituteFragment map path name = .ok substituted) :
    spreadsEach substituted = [] := by
  rcases exists_of_substituteFragment_eq_ok succeeds with
    ⟨passed, fragment, found, bodySucceeds⟩
  apply spreadsEach_of_substituteEach _ bodySucceeds
  intro inner replacement innerSucceeds
  exact spreadsEach_of_substituteFragment innerSucceeds
termination_by map.unopened path
decreasing_by exact FragmentMap.unopened_append_lt found passed

end Spreads

/--
An inlined document holds one operation for every operation of the original, in the same order, and
nothing else. No operation has a spread left, and none has two siblings with the same key.
-/
theorem normalForm_inlineDocument {strictness : Strictness} {document inlined : Document}
    (succeeds : inlineDocument strictness document = .ok inlined) :
    inlined = Document.ofOperations inlined.operations ∧
      List.Forall₂
        (fun before after => after = before.withSelections after.selections ∧
          spreadsEach after.selections = [] ∧ IsMerged after.selections)
        document.operations inlined.operations := by
  rcases exists_of_inlineDocument_eq_ok succeeds with ⟨map, _, operationsOnly, agree⟩
  refine ⟨operationsOnly, agree.imp ?_⟩
  rintro before after ⟨substituted, replaced, rfl⟩
  refine ⟨rfl, ?_, isMerged_deepMerge substituted⟩
  have without : spreadsEach substituted = [] :=
    spreadsEach_of_substituteEach
      (fun _ _ innerSucceeds => spreadsEach_of_substituteFragment innerSucceeds) replaced
  apply List.subset_nil.mp
  rw [← without]
  exact spreadsEach_deepMerge_subset substituted

theorem normalForm_userQuery :
    ∃ inlined, inlineDocument .lenient userQuery = .ok inlined ∧
      inlined = Document.ofOperations inlined.operations ∧
      List.Forall₂
        (fun before after => after = before.withSelections after.selections ∧
          spreadsEach after.selections = [] ∧ IsMerged after.selections)
        userQuery.operations inlined.operations := by
  rcases exists_inlineDocument_userQuery_eq_ok with ⟨inlined, succeeds⟩
  exact ⟨inlined, succeeds, normalForm_inlineDocument succeeds⟩

end QueryPrep.Inline
