import QueryPrep.Proofs.Inline.Substitution
import Mathlib.Data.List.Lattice

/-!
# Remembered fragments

The cache of an inliner is filled by completing one fragment after the other, and a fragment is
only completed after everything that it spreads. So the remembered fragments are closed under
spreading and cannot lie on a cycle, and what is remembered for a name is right under every path
that does not lead through a remembered fragment.
-/

namespace QueryPrep.Inline

open QueryPrep.Graphql Selection

namespace Cache

variable {map : FragmentMap} {cache : Cache} {name : String} {selections : List Selection}

@[simp]
theorem names_insert : (cache.insert name selections).names = cache.names ++ [name] := by
  simp [names, insert]

theorem exists_find?_iff_mem_names : (∃ selections, cache.find? name = some selections) ↔
    name ∈ cache.names := by
  rw [← Option.isSome_iff_exists, find?, List.lookup_isSome_iff]
  simp [names]

theorem mem_names_of_find? (remembered : cache.find? name = some selections) :
    name ∈ cache.names :=
  exists_find?_iff_mem_names.mp ⟨selections, remembered⟩

theorem find?_insert_of_find? {other : String} {others : List Selection}
    (remembered : cache.find? other = some others) :
    (cache.insert name selections).find? other = some others := by
  rw [find?] at remembered
  simp [find?, insert, List.lookup_append, remembered]

theorem find?_insert_self (fresh : name ∉ cache.names) :
    (cache.insert name selections).find? name = some selections := by
  have missing : cache.entries.lookup name = none := by
    cases found : cache.entries.lookup name with
    | none => rfl
    | some others => exact absurd (mem_names_of_find? found) fresh
  simp [find?, insert, List.lookup_append, missing]

/--
A cache that was filled by completing one fragment after the other, each after all the fragments
that it spreads. What is remembered of a fragment is its substitution, merged.
-/
inductive Built (map : FragmentMap) : Cache → Prop
  | empty : Built map empty
  | insert {cache : Cache} {name : String} {fragment : FragmentDefinition}
      {substituted : List Selection} (built : Built map cache) (fresh : name ∉ cache.names)
      (found : map.find? name = some fragment)
      (closed : ∀ inner ∈ spreadsEach fragment.selections, inner ∈ cache.names)
      (substitutes : substituteFragment map [] name = .ok substituted) :
      Built map (cache.insert name (deepMerge substituted))

/-- Whatever is remembered is right, unless the path leads through something remembered. -/
theorem Built.substituteFragment_eq (built : cache.Built map)
    (remembered : cache.find? name = some selections) :
    ∃ substituted, selections = deepMerge substituted ∧
      ∀ path : List String, path.Disjoint cache.names →
        substituteFragment map path name = .ok substituted := by
  induction built generalizing name selections with
  | empty => simp [find?, Cache.empty] at remembered
  | @insert cache completed fragment substituted built fresh found closed substitutes ih =>
      by_cases earlier : name ∈ cache.names
      · rcases exists_find?_iff_mem_names.mpr earlier with ⟨others, before⟩
        rw [find?_insert_of_find? before, Option.some.injEq] at remembered
        subst others
        rcases ih before with ⟨inner, merged, independent⟩
        refine ⟨inner, merged, ?_⟩
        intro path disjoint
        rw [names_insert, List.disjoint_append_right] at disjoint
        exact independent path disjoint.1
      · have same : name = completed := by
          have member := mem_names_of_find? remembered
          simpa [earlier] using member
        subst name
        rw [find?_insert_self fresh, Option.some.injEq] at remembered
        refine ⟨substituted, remembered.symm, ?_⟩
        intro path disjoint
        rw [names_insert, List.disjoint_append_right, List.disjoint_singleton] at disjoint
        have onlyCompleted : [completed].Disjoint cache.names := List.singleton_disjoint.mpr fresh
        have withCompleted : (path ++ [completed]).Disjoint cache.names :=
          List.disjoint_append_left.mpr ⟨disjoint.1, onlyCompleted⟩
        rw [substituteFragment_of_find?_eq_some List.not_mem_nil found] at substitutes
        rw [substituteFragment_of_find?_eq_some disjoint.2 found]
        rw [← substitutes]
        -- Everything the fragment spreads was remembered before it and does not depend on the path.
        apply substituteEach_congr
        intro inner spread
        rcases exists_find?_iff_mem_names.mpr (closed inner spread) with ⟨others, before⟩
        rcases ih before with ⟨expansion, _, independent⟩
        rw [independent _ withCompleted, List.nil_append, independent _ onlyCompleted]

end Cache

end QueryPrep.Inline
