import QueryPrep.Proofs.Inline.FragmentGraph
import QueryPrep.Proofs.Inline.Refinement
import QueryPrep.Proofs.Merge.NormalForm

/-!
# Requests are neither lost nor invented

The key paths of an operation say what it requests. In an operation with spreads, a spread stands
for the selections of the fragment that it names and adds no key of its own. Inlining an operation
leaves it with the same key paths: substituting a spread puts in its place what it stands for, and
merging does not change the key paths.
-/

namespace QueryPrep.Graphql

open Selection

/-- A key path of siblings in which every spread is read as the selections that it stands for. -/
inductive HasRequest (document : Document) : List Selection → List String → Prop
  | nil {siblings : List Selection} : HasRequest document siblings []
  | node {siblings : List Selection} {head : Head} {set : Option (List Selection)}
      {path : List String} (member : .node head set ∈ siblings)
      (below : HasRequest document (set.getD []) path) :
      HasRequest document siblings (head.key :: path)
  | spread {siblings : List Selection} {name : Name} {directives : List Directive}
      {fragment : FragmentDefinition} {path : List String}
      (member : .spread name directives ∈ siblings)
      (found : document.lastFragment? name.text = some fragment)
      (within : HasRequest document fragment.selections path) :
      HasRequest document siblings path

namespace HasRequest

variable {document : Document} {siblings more : List Selection} {path : List String}

theorem of_subset (subset : siblings ⊆ more) (request : HasRequest document siblings path) :
    HasRequest document more path := by
  cases request with
  | nil => exact .nil
  | node member below => exact .node (subset member) below
  | spread member found within => exact .spread (subset member) found within

theorem cons_iff {selection : Selection} :
    HasRequest document (selection :: siblings) path ↔
      HasRequest document [selection] path ∨ HasRequest document siblings path := by
  constructor
  · intro request
    cases request with
    | nil => exact Or.inl .nil
    | node member below =>
        rcases List.mem_cons.mp member with rfl | later
        · exact Or.inl (.node List.mem_cons_self below)
        · exact Or.inr (.node later below)
    | spread member found within =>
        rcases List.mem_cons.mp member with rfl | later
        · exact Or.inl (.spread List.mem_cons_self found within)
        · exact Or.inr (.spread later found within)
  · rintro (first | later)
    · exact first.of_subset (by simp)
    · exact later.of_subset (List.subset_cons_self _ _)

theorem node_iff {head : Head} {set : Option (List Selection)} {key : String} :
    HasRequest document [.node head set] (key :: path) ↔
      head.key = key ∧ HasRequest document (set.getD []) path := by
  constructor
  · intro request
    cases request with
    | node member below =>
        rw [List.mem_singleton, Selection.node.injEq] at member
        rcases member with ⟨rfl, rfl⟩
        exact ⟨rfl, below⟩
    | spread member found within => simp at member
  · rintro ⟨rfl, below⟩
    exact .node List.mem_cons_self below

theorem spread_iff {name : Name} {directives : List Directive} {fragment : FragmentDefinition}
    (found : document.lastFragment? name.text = some fragment) :
    HasRequest document [.spread name directives] path ↔
      HasRequest document fragment.selections path := by
  constructor
  · intro request
    cases request with
    | nil => exact .nil
    | node member below => simp at member
    | spread member otherFound within =>
        rw [List.mem_singleton, Selection.spread.injEq] at member
        rcases member with ⟨rfl, rfl⟩
        rw [found, Option.some.injEq] at otherFound
        subst otherFound
        exact within
  · exact .spread List.mem_cons_self found

theorem nil_iff : HasRequest document [] path ↔ path = [] := by
  constructor
  · intro request
    cases request with
    | nil => rfl
    | node member below => simp at member
    | spread member found within => simp at member
  · rintro rfl
    exact .nil

end HasRequest

theorem hasKeyPath_empty_iff {path : List String} : HasKeyPath [] path ↔ path = [] := by
  cases path <;> simp [HasKeyPath]

theorem hasKeyPath_node_iff {head : Head} {set : Option (List Selection)} {key : String}
    {path : List String} :
    HasKeyPath [.node head set] (key :: path) ↔ head.key = key ∧ HasKeyPath (set.getD []) path := by
  simp [HasKeyPath, selections?]

end QueryPrep.Graphql

namespace QueryPrep.Inline

open QueryPrep.Graphql Selection

section Substitution

variable {replace : String → Except InlineError (List Selection)} {document : Document}

/-- A replacement of a name has the key paths of what the name stands for. -/
def KeepsRequests (document : Document)
    (replace : String → Except InlineError (List Selection)) : Prop :=
  ∀ name replacement, replace name = .ok replacement →
    ∃ fragment, document.lastFragment? name = some fragment ∧
      ∀ path, HasKeyPath replacement path ↔ HasRequest document fragment.selections path

mutual

theorem hasKeyPath_substituteSelection_iff {selection : Selection} {substituted : List Selection}
    (keeps : KeepsRequests document replace)
    (succeeds : substituteSelection replace selection = .ok substituted) (path : List String) :
    HasKeyPath substituted path ↔ HasRequest document [selection] path := by
  cases selection with
  | spread name directives =>
      rcases keeps name.text substituted succeeds with ⟨fragment, found, same⟩
      rw [same, HasRequest.spread_iff found]
  | node head set =>
      rcases path with _ | ⟨key, path⟩
      · exact iff_of_true hasKeyPath_nil .nil
      cases set with
      | none =>
          simp only [substituteSelection, pure, Except.pure, Except.ok.injEq] at succeeds
          subst substituted
          rw [hasKeyPath_node_iff, HasRequest.node_iff, Option.getD_none, hasKeyPath_empty_iff,
            HasRequest.nil_iff]
      | some selections =>
          rcases substituteSelection_node_eq_ok_iff.mp succeeds with ⟨below, belowSucceeds, rfl⟩
          rw [hasKeyPath_node_iff, HasRequest.node_iff, Option.getD_some, Option.getD_some,
            hasKeyPath_substituteEach_iff keeps belowSucceeds]

theorem hasKeyPath_substituteEach_iff {selections substituted : List Selection}
    (keeps : KeepsRequests document replace)
    (succeeds : substituteEach replace selections = .ok substituted) (path : List String) :
    HasKeyPath substituted path ↔ HasRequest document selections path := by
  cases selections with
  | nil =>
      simp only [substituteEach, pure, Except.pure, Except.ok.injEq] at succeeds
      subst substituted
      rw [hasKeyPath_empty_iff, HasRequest.nil_iff]
  | cons selection rest =>
      rcases substituteEach_cons_eq_ok_iff.mp succeeds with
        ⟨first, others, firstSucceeds, othersSucceed, rfl⟩
      rw [hasKeyPath_append_iff, HasRequest.cons_iff,
        hasKeyPath_substituteSelection_iff keeps firstSucceeds,
        hasKeyPath_substituteEach_iff keeps othersSucceed]

end

theorem keepsRequests_substituteFragment {map : FragmentMap}
    (agrees : ∀ name, map.find? name = document.lastFragment? name) (path : List String) :
    KeepsRequests document (substituteFragment map path) := by
  intro name replacement succeeds
  rcases exists_of_substituteFragment_eq_ok succeeds with
    ⟨passed, fragment, found, bodySucceeds⟩
  refine ⟨fragment, agrees name ▸ found, ?_⟩
  apply hasKeyPath_substituteEach_iff _ bodySucceeds
  exact keepsRequests_substituteFragment agrees (path ++ [name])
termination_by map.unopened path
decreasing_by exact FragmentMap.unopened_append_lt found passed

end Substitution

/--
The key paths of an inlined operation are the key paths of the original, read with every spread as
the selections of the last fragment that has its name.
-/
theorem hasKeyPath_inlineDocument_iff {strictness : Strictness} {document inlined : Document}
    (succeeds : inlineDocument strictness document = .ok inlined) :
    List.Forall₂
      (fun before after => ∀ path,
        HasKeyPath after.selections path ↔ HasRequest document before.selections path)
      document.operations inlined.operations := by
  rcases exists_of_inlineDocument_eq_ok succeeds with ⟨map, mapped, _, agree⟩
  apply agree.imp
  rintro before after ⟨substituted, replaced, rfl⟩ path
  have agrees := FragmentMap.find?_of_ofDocument mapped
  have keeps := keepsRequests_substituteFragment agrees []
  exact (hasKeyPath_deepMerge_iff substituted path).trans
    (hasKeyPath_substituteEach_iff keeps replaced path)

theorem hasKeyPath_userQuery_iff :
    ∃ inlined, inlineDocument .lenient userQuery = .ok inlined ∧
      List.Forall₂
        (fun before after => ∀ path,
          HasKeyPath after.selections path ↔ HasRequest userQuery before.selections path)
        userQuery.operations inlined.operations := by
  rcases exists_inlineDocument_userQuery_eq_ok with ⟨inlined, succeeds⟩
  exact ⟨inlined, succeeds, hasKeyPath_inlineDocument_iff succeeds⟩

end QueryPrep.Inline
