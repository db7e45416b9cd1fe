import QueryPrep.Proofs.Merge.DeepMerge

/-!
# Merged trees

Merging from the top down leaves no key twice among siblings, at any level. What it keeps is
described by key paths: the keys that are read on the way from a selection among the siblings down
to some selection below it. The sets of a group are put together, so that no path is lost, and only
sets of one group are, so that none comes in.

Siblings whose own sets are merged already need no more than one level of merging on top. So merged
sets stay merged when they are put together, whatever keys they share.
-/

namespace QueryPrep.Graphql

open Selection

/-- Siblings without a repeated key, on their level and on all levels below. -/
inductive IsMerged : List Selection → Prop
  | intro {siblings : List Selection} (distinct : (siblings.map Selection.key).Nodup)
      (below : ∀ selection ∈ siblings, ∀ set, selection.selections? = some set → IsMerged set) :
      IsMerged siblings

/-- The keys of a path lead from one of the siblings down, level by level. -/
def HasKeyPath : List Selection → List String → Prop
  | _, [] => True
  | siblings, key :: path => ∃ selection ∈ siblings, selection.key = key ∧
      HasKeyPath (selection.selections?.getD []) path

section Groups

theorem getD_joinSets (group : List Selection) :
    (joinSets group).getD [] = group.flatMap (·.selections?.getD []) := by
  induction group with
  | nil => rfl
  | cons first others ih =>
      rw [List.flatMap_cons, ← ih, joinSets_cons]
      cases first.selections? <;> cases joinSets others <;> simp

theorem selections?_deepGroup {first : Selection} {others : List Selection}
    (sameKey : ∀ member ∈ others, member.key = first.key) :
    (deepGroup first others).selections? = (joinSets (first :: others)).map deepMerge :=
  selections?_withSelections?_joinSets deepMerge sameKey

theorem getD_selections?_deepGroup {siblings : List Selection} {key : String} {first : Selection}
    {others : List Selection} (group : withKey key siblings = first :: others) :
    (deepGroup first others).selections?.getD [] =
      deepMerge ((withKey key siblings).flatMap (·.selections?.getD [])) := by
  have sameKey : ∀ member ∈ first :: others, member.key = key := by
    intro member present
    rw [← group] at present
    exact (mem_withKey.mp present).2
  have firstKey := sameKey first List.mem_cons_self
  rw [group, selections?_deepGroup, ← getD_joinSets]
  · cases joinSets (first :: others) <;> simp [deepMerge]
  · intro member present
    rw [firstKey]
    exact sameKey member (List.mem_cons_of_mem _ present)

end Groups

section Merged

theorem IsMerged.cons {first : Selection} {rest : List Selection}
    (fresh : first.key ∉ rest.map Selection.key)
    (below : ∀ set, first.selections? = some set → IsMerged set) (merged : IsMerged rest) :
    IsMerged (first :: rest) := by
  cases merged with
  | intro distinct restBelow =>
      apply IsMerged.intro
      · exact List.nodup_cons.mpr ⟨fresh, distinct⟩
      · intro selection member set held
        rcases List.mem_cons.mp member with rfl | later
        · exact below set held
        · exact restBelow selection later set held

/-- Merging from the top down leaves nothing to merge. -/
theorem isMerged_deepMerge (siblings : List Selection) : IsMerged (deepMerge siblings) := by
  induction siblings using deepMerge.induct with
  | case1 =>
      rw [deepMerge]
      exact .intro List.nodup_nil (by simp)
  | case2 first rest lower others =>
      rw [deepMerge_cons]
      apply IsMerged.cons
      · rw [keepsKeys_deepGroup, ← withKey_eq_nil_iff, deepMerge_eq_groupWith]
        exact withKey_groupWith_of_eq_nil keepsKeys_deepGroup withKey_withoutKey_self
      · intro set held
        rw [selections?_deepGroup fun member present => (mem_withKey.mp present).2,
          Option.map_eq_some_iff] at held
        rcases held with ⟨joined, joins, rfl⟩
        exact lower joined joins
      · exact others

/-- Where merging changes no set below the siblings, they are merged from the top down at once. -/
theorem deepMerge_eq_mergeSelections_of_below {siblings : List Selection}
    (unchanged : ∀ selection ∈ siblings, ∀ set, selection.selections? = some set →
      deepMerge set = set) : deepMerge siblings = mergeSelections siblings := by
  have same : siblings.map mergeBelow = siblings := by
    apply (List.map_congr_left _).trans (List.map_id siblings)
    intro selection member
    cases selection with
    | spread name directives => rfl
    | node head set =>
        cases set with
        | none => rfl
        | some set => simp [mergeBelow, selections?, withSelections?, unchanged _ member set rfl]
  rw [deepMerge_eq_mergeSelections, same]

/-- Merged siblings are merged into themselves. -/
theorem deepMerge_eq_self {siblings : List Selection} (merged : IsMerged siblings) :
    deepMerge siblings = siblings := by
  induction merged with
  | intro distinct _ ih =>
      rw [deepMerge_eq_mergeSelections_of_below ih, mergeSelections_eq_mergeLevel]
      exact mergeLevel_eq_self distinct

end Merged

section Preservation

/-- Siblings whose own sets are merged, whether or not the siblings share keys. -/
def MergedBelow (siblings : List Selection) : Prop :=
  ∀ selection ∈ siblings, ∀ set, selection.selections? = some set → IsMerged set

theorem mergedBelow_cons_iff {first : Selection} {rest : List Selection} :
    MergedBelow (first :: rest) ↔
      (∀ set, first.selections? = some set → IsMerged set) ∧ MergedBelow rest :=
  List.forall_mem_cons

theorem isMerged_iff {siblings : List Selection} :
    IsMerged siblings ↔ (siblings.map Selection.key).Nodup ∧ MergedBelow siblings :=
  ⟨fun ⟨distinct, below⟩ => ⟨distinct, below⟩, fun ⟨distinct, below⟩ => .intro distinct below⟩

mutual

/-- Goes through the set of a selection in search of a repeated key. -/
def decidableMergedSet :
    (selection : Selection) → Decidable (∀ set, selection.selections? = some set → IsMerged set)
  | .node _ none => isTrue (by simp [selections?])
  | .node _ (some set) =>
      haveI := decidableMergedBelow set
      decidable_of_iff ((set.map Selection.key).Nodup ∧ MergedBelow set)
        (by simp [selections?, isMerged_iff])
  | .spread _ _ => isTrue (by simp [selections?])

/-- Goes through the sets of all siblings in search of a repeated key. -/
def decidableMergedBelow : (siblings : List Selection) → Decidable (MergedBelow siblings)
  | [] => isTrue (by simp [MergedBelow])
  | selection :: rest =>
      haveI := decidableMergedSet selection
      haveI := decidableMergedBelow rest
      decidable_of_iff
        ((∀ set, selection.selections? = some set → IsMerged set) ∧ MergedBelow rest)
        mergedBelow_cons_iff.symm

end

instance : DecidablePred MergedBelow := decidableMergedBelow

instance : DecidablePred IsMerged := fun _ => decidable_of_iff _ isMerged_iff.symm

theorem isMerged_mergeSelections {siblings : List Selection} (below : MergedBelow siblings) :
    IsMerged (mergeSelections siblings) := by
  rw [← deepMerge_eq_mergeSelections_of_below]
  · exact isMerged_deepMerge siblings
  · intro selection member set held
    exact deepMerge_eq_self (below selection member set held)

theorem mergedBelow_append {before after : List Selection} (first : MergedBelow before)
    (second : MergedBelow after) : MergedBelow (before ++ after) := by
  intro selection member
  rcases List.mem_append.mp member with inBefore | inAfter
  · exact first selection inBefore
  · exact second selection inAfter

/--
Where the sets below the siblings are merged, merging makes the siblings merged throughout. Uniting
two selection sets does so too, whether one of them is missing or not.
-/
theorem isMerged_mergeSelections_and_mergeSelectionSets :
    (∀ siblings, MergedBelow siblings → IsMerged (mergeSelections siblings)) ∧
      ∀ first second : Option (List Selection),
        MergedBelow (first.getD []) → MergedBelow (second.getD []) →
          first ≠ none ∨ second ≠ none →
            ∃ united, mergeSelectionSets first second = some united ∧ IsMerged united := by
  refine ⟨fun _ => isMerged_mergeSelections, ?_⟩
  intro first second firstBelow secondBelow present
  refine ⟨mergeSelections (first.getD [] ++ second.getD []), ?_, ?_⟩
  · cases first <;> cases second <;> simp [mergeSelectionSets] at present ⊢
  · exact isMerged_mergeSelections (mergedBelow_append firstBelow secondBelow)

/-- A request for a book on a shelf, and for something about the book. -/
private def shelfField (set : List Selection) : Selection :=
  .node (.field none ⟨"shelf", rfl⟩ [] [])
    (some [.node (.field none ⟨"book", rfl⟩ [] []) (some set)])

private def titleField : Selection := .node (.field none ⟨"title", rfl⟩ [] []) none

private def pagesField : Selection := .node (.field none ⟨"pages", rfl⟩ [] []) none

/-- The shelf is requested twice, on it the book twice, and of the book the title twice. -/
def shelfSelections : List Selection :=
  [shelfField [titleField], shelfField [pagesField, titleField]]

theorem isMerged_shelfSelections :
    (MergedBelow shelfSelections ∧ ¬ IsMerged shelfSelections) ∧
      IsMerged (mergeSelections shelfSelections) ∧
      ∃ united, mergeSelectionSets none (some shelfSelections) = some united ∧ IsMerged united := by
  have below : MergedBelow shelfSelections := by decide +kernel
  have missing : MergedBelow ((none : Option (List Selection)).getD []) := by decide +kernel
  refine ⟨⟨below, by decide +kernel⟩, ?_, ?_⟩
  · exact isMerged_mergeSelections_and_mergeSelectionSets.1 _ below
  · exact isMerged_mergeSelections_and_mergeSelectionSets.2 none (some _) missing below (by simp)

end Preservation

section KeyPaths

variable {before after siblings : List Selection} {key : String}

@[simp]
theorem hasKeyPath_nil : HasKeyPath siblings [] := by
  simp [HasKeyPath]

theorem hasKeyPath_append_iff (path : List String) :
    HasKeyPath (before ++ after) path ↔ HasKeyPath before path ∨ HasKeyPath after path := by
  cases path with
  | nil => simp
  | cons key path => simp only [HasKeyPath, List.mem_append, or_and_right, exists_or]

theorem hasKeyPath_flatMap_iff (sets : Selection → List Selection) (first : Selection)
    (others : List Selection) (path : List String) :
    HasKeyPath ((first :: others).flatMap sets) path ↔
      ∃ member ∈ first :: others, HasKeyPath (sets member) path := by
  induction others generalizing first with
  | nil => simp
  | cons second others ih =>
      rw [List.flatMap_cons, hasKeyPath_append_iff, ih]
      simp

theorem hasKeyPath_cons_iff (path : List String) :
    HasKeyPath siblings (key :: path) ↔
      ∃ member ∈ withKey key siblings, HasKeyPath (member.selections?.getD []) path := by
  simp only [HasKeyPath, mem_withKey, and_assoc]

/-- Merging from the top down loses no key path and adds none. -/
theorem hasKeyPath_deepMerge_iff (siblings : List Selection) (path : List String) :
    HasKeyPath (deepMerge siblings) path ↔ HasKeyPath siblings path := by
  induction path generalizing siblings with
  | nil => simp
  | cons key path ih =>
      rw [hasKeyPath_cons_iff, hasKeyPath_cons_iff, deepMerge_eq_groupWith]
      cases group : withKey key siblings with
      | nil => rw [withKey_groupWith_of_eq_nil keepsKeys_deepGroup group]
      | cons first others =>
          rw [withKey_groupWith_of_eq_cons keepsKeys_deepGroup group]
          simp only [List.mem_singleton, exists_eq_left]
          rw [getD_selections?_deepGroup group, ih, group, hasKeyPath_flatMap_iff]

end KeyPaths

end QueryPrep.Graphql
