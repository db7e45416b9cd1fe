import QueryPrep.Proofs.Inline.FragmentGraph
import QueryPrep.Proofs.Inline.NormalForm
import QueryPrep.Proofs.Merge.FirstOccurrences

/-!
# Reading an operation through its spreads

A reader of an operation who treats spreads as transparent goes from a node to the nodes in its set
and from a spread to the selections of the fragment that it names. `Descends` records what such a
reader sees: the heads of the nodes on the way, and the directives of the spreads passed between
them. `Expands` puts the same into one tree without spreads.

An inlined operation is this tree, merged (`exists_expands_of_inlineDocument_eq_ok`). So the heads
that are read in it are the first ones of the tree.
-/

namespace QueryPrep.Graphql

open Selection

/--
The heads lead down from the siblings, where a spread is read as the selections that it stands for.
The directives of the spreads that are passed are kept apart.
-/
inductive Descends (document : Document) :
    List Selection → List Head → List (List Directive) → Prop
  | nil {siblings : List Selection} : Descends document siblings [] []
  | node {siblings : List Selection} {head : Head} {set : Option (List Selection)}
      {heads : List Head} {passed : List (List Directive)} (member : .node head set ∈ siblings)
      (below : Descends document (set.getD []) heads passed) :
      Descends document siblings (head :: heads) passed
  | spread {siblings : List Selection} {name : Name} {directives : List Directive}
      {fragment : FragmentDefinition} {heads : List Head} {passed : List (List Directive)}
      (member : .spread name directives ∈ siblings)
      (found : document.lastFragment? name.text = some fragment)
      (within : Descends document fragment.selections heads passed) :
      Descends document siblings heads (directives :: passed)

/-- The siblings become a list without spreads when every spread gives way to what it stands for. -/
inductive Expands (document : Document) : List Selection → List Selection → Prop
  | nil : Expands document [] []
  | leaf {head : Head} {rest others : List Selection} (later : Expands document rest others) :
      Expands document (.node head none :: rest) (.node head none :: others)
  | node {head : Head} {set expanded rest others : List Selection}
      (below : Expands document set expanded) (later : Expands document rest others) :
      Expands document (.node head (some set) :: rest) (.node head (some expanded) :: others)
  | spread {name : Name} {directives : List Directive} {fragment : FragmentDefinition}
      {expanded rest others : List Selection}
      (found : document.lastFragment? name.text = some fragment)
      (within : Expands document fragment.selections expanded)
      (later : Expands document rest others) :
      Expands document (.spread name directives :: rest) (expanded ++ others)

/-- The heads are the first ones of their keys in what the siblings become. -/
def DescendsFirst (document : Document) (siblings : List Selection) (heads : List Head) : Prop :=
  ∃ expanded, Expands document siblings expanded ∧ HasFirstHeads expanded heads

/-- A node with this head can be read below nodes with the keys of the path. -/
def OccursAt (document : Document) (siblings : List Selection) (path : List String)
    (head : Head) : Prop :=
  ∃ heads passed, heads.map Head.key = path ∧ Descends document siblings (heads ++ [head]) passed

/-- The head is that of the first node with its key below nodes with the keys of the path. -/
def IsFirstAt (document : Document) (siblings : List Selection) (path : List String)
    (head : Head) : Prop :=
  ∃ heads, heads.map Head.key = path ∧ DescendsFirst document siblings (heads ++ [head])

section Reading

variable {document : Document} {siblings more expanded : List Selection}
variable {heads : List Head} {passed : List (List Directive)}

theorem Descends.of_subset (subset : siblings ⊆ more)
    (descends : Descends document siblings heads passed) :
    Descends document more heads passed := by
  cases descends with
  | nil => exact .nil
  | node member below => exact .node (subset member) below
  | spread member found within => exact .spread (subset member) found within

theorem HasHeads.descends (has : HasHeads siblings heads) :
    Descends document siblings heads [] := by
  induction heads generalizing siblings with
  | nil => exact .nil
  | cons head heads ih =>
      rcases has with ⟨set, member, below⟩
      exact .node member (ih below)

theorem Descends.hasHeads_of_spreadsEach_eq_nil (without : spreadsEach siblings = [])
    (descends : Descends document siblings heads passed) :
    HasHeads siblings heads ∧ passed = [] := by
  induction descends with
  | nil => simp
  | @node siblings head set heads passed member below ih =>
      have belowWithout : spreadsEach (set.getD []) = [] := by
        apply List.eq_nil_iff_forall_not_mem.mpr
        intro name inSet
        have inSiblings : name ∈ spreadsEach siblings :=
          mem_spreadsEach.mpr ⟨_, member, mem_spreads_of_mem_below inSet⟩
        simp [without] at inSiblings
      rcases ih belowWithout with ⟨has, none⟩
      exact ⟨⟨set, member, has⟩, none⟩
  | @spread siblings name directives fragment heads passed member found within ih =>
      have inSiblings : name.text ∈ spreadsEach siblings :=
        mem_spreadsEach.mpr ⟨_, member, by simp [spreads]⟩
      simp [without] at inSiblings

end Reading

section Expansion

variable {document : Document} {siblings expanded : List Selection}
variable {heads : List Head} {passed : List (List Directive)}

theorem Expands.unique {other : List Selection} (expands : Expands document siblings expanded)
    (otherExpands : Expands document siblings other) : expanded = other := by
  induction expands generalizing other with
  | nil =>
      cases otherExpands
      rfl
  | leaf later ih =>
      cases otherExpands with
      | leaf otherLater => rw [ih otherLater]
  | node below later belowIh ih =>
      cases otherExpands with
      | node otherBelow otherLater => rw [belowIh otherBelow, ih otherLater]
  | spread found within later withinIh ih =>
      cases otherExpands with
      | spread otherFound otherWithin otherLater =>
          rw [found, Option.some.injEq] at otherFound
          subst otherFound
          rw [withinIh otherWithin, ih otherLater]

theorem Expands.exists_of_mem_node {head : Head} {set : Option (List Selection)}
    (expands : Expands document siblings expanded) (member : .node head set ∈ siblings) :
    ∃ expandedSet, .node head expandedSet ∈ expanded ∧
      Expands document (set.getD []) (expandedSet.getD []) := by
  induction expands with
  | nil => simp at member
  | leaf later ih =>
      rcases List.mem_cons.mp member with same | inRest
      · rw [Selection.node.injEq] at same
        rcases same with ⟨rfl, rfl⟩
        exact ⟨none, List.mem_cons_self, .nil⟩
      · rcases ih inRest with ⟨expandedSet, inOthers, below⟩
        exact ⟨expandedSet, List.mem_cons_of_mem _ inOthers, below⟩
  | @node _ _ expandedBelow _ _ below later _ ih =>
      rcases List.mem_cons.mp member with same | inRest
      · rw [Selection.node.injEq] at same
        rcases same with ⟨rfl, rfl⟩
        exact ⟨some expandedBelow, List.mem_cons_self, below⟩
      · rcases ih inRest with ⟨expandedSet, inOthers, below⟩
        exact ⟨expandedSet, List.mem_cons_of_mem _ inOthers, below⟩
  | spread found within later _ ih =>
      have inRest := (List.mem_cons.mp member).resolve_left (by simp)
      rcases ih inRest with ⟨expandedSet, inOthers, below⟩
      exact ⟨expandedSet, List.mem_append_right _ inOthers, below⟩

theorem Expands.exists_of_mem_spread {name : Name} {directives : List Directive}
    (expands : Expands document siblings expanded) (member : .spread name directives ∈ siblings) :
    ∃ fragment inner, document.lastFragment? name.text = some fragment ∧
      Expands document fragment.selections inner ∧ inner ⊆ expanded := by
  induction expands with
  | nil => simp at member
  | leaf later ih =>
      have inRest := (List.mem_cons.mp member).resolve_left (by simp)
      rcases ih inRest with ⟨fragment, inner, found, within, subset⟩
      exact ⟨fragment, inner, found, within, List.subset_cons_of_subset _ subset⟩
  | node below later _ ih =>
      have inRest := (List.mem_cons.mp member).resolve_left (by simp)
      rcases ih inRest with ⟨fragment, inner, found, within, subset⟩
      exact ⟨fragment, inner, found, within, List.subset_cons_of_subset _ subset⟩
  | @spread _ _ fragment inner _ _ found within later _ ih =>
      rcases List.mem_cons.mp member with same | inRest
      · rw [Selection.spread.injEq] at same
        rcases same with ⟨rfl, rfl⟩
        exact ⟨fragment, inner, found, within, List.subset_append_left _ _⟩
      · rcases ih inRest with ⟨fragment, inner, found, within, subset⟩
        exact ⟨fragment, inner, found, within, List.subset_append_of_subset_right _ subset⟩

/-- What is read through the spreads is there once they have given way. -/
theorem Expands.hasHeads (expands : Expands document siblings expanded)
    (descends : Descends document siblings heads passed) : HasHeads expanded heads := by
  induction descends generalizing expanded with
  | nil => exact hasHeads_nil
  | node member below ih =>
      rcases expands.exists_of_mem_node member with ⟨set, inExpanded, belowExpands⟩
      exact ⟨set, inExpanded, ih belowExpands⟩
  | spread member found within ih =>
      rcases expands.exists_of_mem_spread member with
        ⟨other, inner, otherFound, innerExpands, subset⟩
      rw [found, Option.some.injEq] at otherFound
      subst other
      exact (ih innerExpands).of_subset subset

/-- Nothing else is there. -/
theorem Expands.exists_descends (expands : Expands document siblings expanded)
    (has : HasHeads expanded heads) : ∃ passed, Descends document siblings heads passed := by
  induction expands generalizing heads with
  | nil =>
      cases heads with
      | nil => exact ⟨[], .nil⟩
      | cons head heads => simp [HasHeads] at has
  | leaf later ih =>
      cases heads with
      | nil => exact ⟨[], .nil⟩
      | cons head heads =>
          rcases hasHeads_cons_node_iff.mp has with ⟨rfl, below⟩ | hasLater
          · exact ⟨[], .node List.mem_cons_self below.descends⟩
          · rcases ih hasLater with ⟨passed, descends⟩
            exact ⟨passed, descends.of_subset (List.subset_cons_self _ _)⟩
  | node below later belowIh ih =>
      cases heads with
      | nil => exact ⟨[], .nil⟩
      | cons head heads =>
          rcases hasHeads_cons_node_iff.mp has with ⟨rfl, hasBelow⟩ | hasLater
          · rcases belowIh hasBelow with ⟨passed, descends⟩
            exact ⟨passed, .node List.mem_cons_self descends⟩
          · rcases ih hasLater with ⟨passed, descends⟩
            exact ⟨passed, descends.of_subset (List.subset_cons_self _ _)⟩
  | @spread _ directives _ _ _ _ found within later withinIh ih =>
      rcases hasHeads_append_iff.mp has with hasWithin | hasLater
      · rcases withinIh hasWithin with ⟨passed, descends⟩
        exact ⟨directives :: passed, .spread List.mem_cons_self found descends⟩
      · rcases ih hasLater with ⟨passed, descends⟩
        exact ⟨passed, descends.of_subset (List.subset_cons_self _ _)⟩

theorem IsFirstAt.occursAt {path : List String} {head : Head}
    (isFirst : IsFirstAt document siblings path head) : OccursAt document siblings path head := by
  rcases isFirst with ⟨firsts, rfl, expanded, expands, hasFirsts⟩
  rcases hasFirsts.exists_hasHeads with ⟨heads, sameKeys, has⟩
  rcases expands.exists_descends has with ⟨passed, descends⟩
  exact ⟨heads, passed, sameKeys, descends⟩

theorem OccursAt.exists_isFirstAt (expands : Expands document siblings expanded)
    {path : List String} {head : Head} (occurs : OccursAt document siblings path head) :
    ∃ first, IsFirstAt document siblings path first ∧ first.key = head.key := by
  rcases occurs with ⟨heads, passed, rfl, descends⟩
  rcases (expands.hasHeads descends).exists_hasFirstHeads with ⟨firsts, sameKeys, hasFirsts⟩
  rcases List.eq_nil_or_concat firsts with rfl | ⟨firsts, first, rfl⟩
  · simp at sameKeys
  rw [List.concat_eq_append] at sameKeys hasFirsts
  simp only [List.map_append, List.map_singleton, List.append_singleton_inj] at sameKeys
  exact ⟨first, ⟨firsts, sameKeys.1, expanded, expands, hasFirsts⟩, sameKeys.2⟩

end Expansion

end QueryPrep.Graphql

namespace QueryPrep.Inline

open QueryPrep.Graphql Selection

section Substitution

variable {replace : String → Except InlineError (List Selection)} {document : Document}

/-- A replacement of a name is what the name stands for, with every spread in it replaced. -/
def ReplacesByExpansion (document : Document)
    (replace : String → Except InlineError (List Selection)) : Prop :=
  ∀ name replacement, replace name = .ok replacement →
    ∃ fragment, document.lastFragment? name = some fragment ∧
      Expands document fragment.selections replacement

theorem expands_of_substituteEach {selections substituted : List Selection}
    (replaces : ReplacesByExpansion document replace)
    (succeeds : substituteEach replace selections = .ok substituted) :
    Expands document selections substituted := by
  match selections with
  | [] =>
      simp only [substituteEach, pure, Except.pure, Except.ok.injEq] at succeeds
      subst substituted
      exact .nil
  | .node head none :: rest =>
      rcases substituteEach_cons_eq_ok_iff.mp succeeds with
        ⟨first, others, firstSucceeds, othersSucceed, rfl⟩
      simp only [substituteSelection, pure, Except.pure, Except.ok.injEq] at firstSucceeds
      subst first
      exact .leaf (expands_of_substituteEach replaces othersSucceed)
  | .node head (some set) :: rest =>
      rcases substituteEach_cons_eq_ok_iff.mp succeeds with
        ⟨first, others, firstSucceeds, othersSucceed, rfl⟩
      rcases substituteSelection_node_eq_ok_iff.mp firstSucceeds with ⟨below, belowSucceeds, rfl⟩
      exact .node (expands_of_substituteEach replaces belowSucceeds)
        (expands_of_substituteEach replaces othersSucceed)
  | .spread name directives :: rest =>
      rcases substituteEach_cons_eq_ok_iff.mp succeeds with
        ⟨first, others, firstSucceeds, othersSucceed, rfl⟩
      rcases replaces name.text first firstSucceeds with ⟨fragment, found, within⟩
      exact .spread found within (expands_of_substituteEach replaces othersSucceed)

theorem replacesByExpansion_substituteFragment {map : FragmentMap}
    (agrees : ∀ name, map.find? name = document.lastFragment? name) (path : List String) :
    ReplacesByExpansion document (substituteFragment map path) := by
  intro name replacement succeeds
  rcases exists_of_substituteFragment_eq_ok succeeds with
    ⟨passed, fragment, found, bodySucceeds⟩
  refine ⟨fragment, agrees name ▸ found, ?_⟩
  apply expands_of_substituteEach _ bodySucceeds
  exact replacesByExpansion_substituteFragment agrees (path ++ [name])
termination_by map.unopened path
decreasing_by exact FragmentMap.unopened_append_lt found passed

end Substitution

section Documents

variable {strictness : Strictness} {document inlined : Document}

/-- An inlined operation is what the operation becomes without spreads, merged. -/
theorem exists_expands_of_inlineDocument_eq_ok
    (succeeds : inlineDocument strictness document = .ok inlined) :
    List.Forall₂
      (fun before after => ∃ expanded, Expands document before.selections expanded ∧
        spreadsEach expanded = [] ∧ after.selections = deepMerge expanded)
      document.operations inlined.operations := by
  rcases exists_of_inlineDocument_eq_ok succeeds with ⟨map, mapped, _, agree⟩
  have agrees := FragmentMap.find?_of_ofDocument mapped
  apply agree.imp
  rintro before after ⟨substituted, replaced, rfl⟩
  refine ⟨substituted, ?_, ?_, rfl⟩
  · exact expands_of_substituteEach (replacesByExpansion_substituteFragment agrees []) replaced
  · apply spreadsEach_of_substituteEach _ replaced
    intro name replacement replacementSucceeds
    exact spreadsEach_of_substituteFragment replacementSucceeds

theorem descends_deepMerge_iff {expanded : List Selection} {heads : List Head}
    {passed : List (List Directive)} (without : spreadsEach expanded = []) :
    Descends document (deepMerge expanded) heads passed ↔
      HasFirstHeads expanded heads ∧ passed = [] := by
  rw [← hasHeads_deepMerge_iff]
  constructor
  · intro descends
    apply descends.hasHeads_of_spreadsEach_eq_nil
    apply List.subset_nil.mp
    rw [← without]
    exact spreadsEach_deepMerge_subset expanded
  · rintro ⟨has, rfl⟩
    exact has.descends

end Documents

end QueryPrep.Inline
