import QueryPrep.Proofs.Merge.NormalForm

/-!
# Which occurrence stays

Of all nodes with the same key path, merging keeps the head of one. This file says which: the first
node with the last key, in the sets of all nodes that have the path up to there, put together in
their order. The heads of the other nodes are gone, with everything about them that is not part of
the key.

`HasHeads` reads the heads on the way down from any of the siblings. `HasFirstHeads` reads them
along the first nodes of their keys. The two agree on merged siblings (`hasHeads_deepMerge_iff`).
-/

namespace QueryPrep.Graphql

open Selection

/-- The heads lead from one of the siblings down, level by level. -/
def HasHeads : List Selection → List Head → Prop
  | _, [] => True
  | siblings, head :: heads => ∃ set, .node head set ∈ siblings ∧ HasHeads (set.getD []) heads

/-- The sets of all siblings with a key, put together in their order. -/
def setsWithKey (key : String) (siblings : List Selection) : List Selection :=
  (withKey key siblings).flatMap (·.selections?.getD [])

/--
The heads lead down as well, but each of them is the head of the first node with its key, and the
next one is looked for in the sets of all siblings that share the key.
-/
def HasFirstHeads : List Selection → List Head → Prop
  | _, [] => True
  | siblings, head :: heads => ∃ set others, withKey head.key siblings = .node head set :: others ∧
      HasFirstHeads (setsWithKey head.key siblings) heads

section Heads

variable {siblings more : List Selection} {head : Head} {heads : List Head} {key : String}

@[simp]
theorem hasHeads_nil : HasHeads siblings [] := by
  simp [HasHeads]

theorem HasHeads.of_subset (subset : siblings ⊆ more) (has : HasHeads siblings heads) :
    HasHeads more heads := by
  cases heads with
  | nil => exact hasHeads_nil
  | cons head heads =>
      rcases has with ⟨set, member, below⟩
      exact ⟨set, subset member, below⟩

theorem hasHeads_append_iff :
    HasHeads (siblings ++ more) heads ↔ HasHeads siblings heads ∨ HasHeads more heads := by
  cases heads with
  | nil => simp
  | cons head heads => simp only [HasHeads, List.mem_append, or_and_right, exists_or]

theorem hasHeads_cons_node_iff {other : Head} {set : Option (List Selection)} :
    HasHeads (.node head set :: siblings) (other :: heads) ↔
      (other = head ∧ HasHeads (set.getD []) heads) ∨ HasHeads siblings (other :: heads) := by
  simp only [HasHeads, List.mem_cons, Selection.node.injEq, or_and_right, exists_or, and_assoc]
  simp

theorem HasHeads.of_append {later : List Head} (has : HasHeads siblings (heads ++ later)) :
    HasHeads siblings heads := by
  induction heads generalizing siblings with
  | nil => exact hasHeads_nil
  | cons head heads ih =>
      rcases has with ⟨set, member, below⟩
      exact ⟨set, member, ih below⟩

theorem HasFirstHeads.of_append {later : List Head}
    (has : HasFirstHeads siblings (heads ++ later)) : HasFirstHeads siblings heads := by
  induction heads generalizing siblings with
  | nil => simp [HasFirstHeads]
  | cons head heads ih =>
      rcases has with ⟨set, others, first, below⟩
      exact ⟨set, others, first, ih below⟩

theorem subset_setsWithKey {set : Option (List Selection)} (member : .node head set ∈ siblings) :
    set.getD [] ⊆ setsWithKey head.key siblings := by
  intro selection below
  apply List.mem_flatMap.mpr
  exact ⟨.node head set, mem_withKey.mpr ⟨member, rfl⟩, below⟩

theorem hasHeads_setsWithKey_iff :
    HasHeads (setsWithKey key siblings) (head :: heads) ↔
      ∃ parent, parent.key = key ∧ HasHeads siblings (parent :: head :: heads) := by
  constructor
  · rintro ⟨set, member, below⟩
    rcases List.mem_flatMap.mp member with ⟨selection, shares, inSet⟩
    rcases mem_withKey.mp shares with ⟨inSiblings, sameKey⟩
    cases selection with
    | spread name directives => simp [selections?] at inSet
    | node parent parentSet => exact ⟨parent, sameKey, parentSet, inSiblings, set, inSet, below⟩
  · rintro ⟨parent, rfl, parentSet, inSiblings, has⟩
    exact has.of_subset (subset_setsWithKey inSiblings)

/-- The first of the siblings with a key is a node if any of them is. -/
theorem exists_first_of_mem {set : Option (List Selection)} (member : .node head set ∈ siblings) :
    ∃ first firstSet others, first.key = head.key ∧
      withKey head.key siblings = .node first firstSet :: others := by
  have shares : Selection.node head set ∈ withKey head.key siblings :=
    mem_withKey.mpr ⟨member, rfl⟩
  cases group : withKey head.key siblings with
  | nil => simp [group] at shares
  | cons first others =>
      have inGroup : first ∈ withKey head.key siblings := group ▸ List.mem_cons_self
      have sameKey := (mem_withKey.mp inGroup).2
      cases first with
      | spread name directives =>
          exact absurd sameKey (Selection.key_spread_ne_key_node head set)
      | node first firstSet => exact ⟨first, firstSet, others, sameKey, rfl⟩

end Heads

section Occurrences

variable {siblings : List Selection} {heads firsts : List Head} {first : Head}

/-- Wherever heads lead down, first heads with the same keys do. -/
theorem HasHeads.exists_hasFirstHeads (has : HasHeads siblings heads) :
    ∃ firsts, firsts.map Head.key = heads.map Head.key ∧ HasFirstHeads siblings firsts := by
  induction heads generalizing siblings with
  | nil => exact ⟨[], rfl, by simp [HasFirstHeads]⟩
  | cons head heads ih =>
      rcases has with ⟨set, member, below⟩
      rcases exists_first_of_mem member with ⟨first, firstSet, others, sameKey, group⟩
      rcases ih (below.of_subset (subset_setsWithKey member)) with ⟨firsts, sameKeys, belowFirst⟩
      refine ⟨first :: firsts, by simp [sameKey, sameKeys], firstSet, others, ?_, ?_⟩
      · rw [sameKey]
        exact group
      · rw [sameKey]
        exact belowFirst

theorem HasFirstHeads.unique {others : List Head} (has : HasFirstHeads siblings firsts)
    (otherHas : HasFirstHeads siblings others)
    (sameKeys : firsts.map Head.key = others.map Head.key) : firsts = others := by
  induction firsts generalizing siblings others with
  | nil => simpa using sameKeys.symm
  | cons first firsts ih =>
      cases others with
      | nil => simp at sameKeys
      | cons other others =>
          rw [List.map_cons, List.map_cons, List.cons.injEq] at sameKeys
          rcases has with ⟨set, rest, group, below⟩
          rcases otherHas with ⟨otherSet, otherRest, otherGroup, otherBelow⟩
          rw [← sameKeys.1] at otherGroup otherBelow
          rw [group, List.cons.injEq, Selection.node.injEq] at otherGroup
          rw [ih below otherBelow sameKeys.2, otherGroup.1.1]

/-- A first head is the head of some node with its key path. -/
theorem HasFirstHeads.exists_hasHeads (has : HasFirstHeads siblings (firsts ++ [first])) :
    ∃ heads, heads.map Head.key = firsts.map Head.key ∧ HasHeads siblings (heads ++ [first]) := by
  induction firsts generalizing siblings with
  | nil =>
      rcases has with ⟨set, others, group, _⟩
      have inGroup : .node first set ∈ withKey first.key siblings := group ▸ List.mem_cons_self
      exact ⟨[], rfl, set, (mem_withKey.mp inGroup).1, hasHeads_nil⟩
  | cons outer firsts ih =>
      rcases has with ⟨set, others, group, below⟩
      rcases ih below with ⟨heads, sameKeys, belowHas⟩
      cases heads with
      | nil =>
          rcases hasHeads_setsWithKey_iff.mp belowHas with ⟨parent, sameKey, parentHas⟩
          exact ⟨[parent], by simp [sameKey, ← sameKeys], parentHas⟩
      | cons head heads =>
          rcases hasHeads_setsWithKey_iff.mp belowHas with ⟨parent, sameKey, parentHas⟩
          exact ⟨parent :: head :: heads, by simp [sameKey, ← sameKeys], parentHas⟩

theorem HasFirstHeads.exists_hasHeads_map_key (has : HasFirstHeads siblings firsts) :
    ∃ heads, heads.map Head.key = firsts.map Head.key ∧ HasHeads siblings heads := by
  rcases List.eq_nil_or_concat firsts with rfl | ⟨outer, first, rfl⟩
  · exact ⟨[], rfl, hasHeads_nil⟩
  · rw [List.concat_eq_append] at has
    rcases has.exists_hasHeads with ⟨heads, sameKeys, hasHeads⟩
    exact ⟨heads ++ [first], by simp [sameKeys], hasHeads⟩

end Occurrences

/-- What is read in merged siblings are the first heads of the siblings. -/
theorem hasHeads_deepMerge_iff (siblings : List Selection) (heads : List Head) :
    HasHeads (deepMerge siblings) heads ↔ HasFirstHeads siblings heads := by
  induction heads generalizing siblings with
  | nil => simp [HasFirstHeads]
  | cons head heads ih =>
      have grouped : ∀ set, .node head set ∈ deepMerge siblings ↔
          .node head set ∈ withKey head.key (groupWith deepGroup siblings) := by
        intro set
        simp [deepMerge_eq_groupWith, mem_withKey]
      simp only [HasHeads, HasFirstHeads, grouped]
      cases group : withKey head.key siblings with
      | nil => simp [withKey_groupWith_of_eq_nil keepsKeys_deepGroup group]
      | cons first others =>
          have below := getD_selections?_deepGroup group
          rw [withKey_groupWith_of_eq_cons keepsKeys_deepGroup group]
          simp only [List.mem_singleton]
          cases first with
          | spread name directives => simp [deepGroup, withSelections?]
          | node first firstSet =>
              simp only [deepGroup, withSelections?, selections?] at below ⊢
              constructor
              · rintro ⟨set, same, has⟩
                rw [Selection.node.injEq] at same
                rcases same with ⟨rfl, rfl⟩
                rw [below, ih] at has
                exact ⟨firstSet, others, rfl, has⟩
              · rintro ⟨set, rest, same, has⟩
                rw [List.cons.injEq, Selection.node.injEq] at same
                rcases same with ⟨⟨rfl, rfl⟩, rfl⟩
                refine ⟨_, rfl, ?_⟩
                rw [below, ih]
                exact has

end QueryPrep.Graphql
