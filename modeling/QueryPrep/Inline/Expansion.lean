import QueryPrep.Inline.FragmentMap
import QueryPrep.Merge.Selections

/-!
# Expanding spreads

Every spread is replaced by the selections of the fragment that it names, expanded in turn, and
each list of siblings is merged once its own spreads are gone. A fragment that has been expanded
is remembered, so its later spreads cost nothing. What was remembered before an error stays.

An expansion knows the fragments whose bodies are open. A spread of one of them is a cycle; any
other spread opens a fragment that was not open before, so the recursion ends after as many steps
as there are fragments.
-/

namespace QueryPrep.Inline

open QueryPrep.Graphql

/-- The expanded fragments, in the order in which their expansions were completed. -/
structure Cache where
  entries : List (String × List Selection)

namespace Cache

/-- Nothing has been expanded yet. -/
def empty : Cache := ⟨[]⟩

/-- The selections that a fragment was expanded to. -/
def find? (cache : Cache) (name : String) : Option (List Selection) :=
  cache.entries.lookup name

/-- The cache with one more fragment. -/
def insert (cache : Cache) (name : String) (selections : List Selection) : Cache :=
  ⟨cache.entries ++ [(name, selections)]⟩

/-- The names of the expanded fragments. -/
def names (cache : Cache) : List String :=
  cache.entries.map Prod.fst

end Cache

/-- An expansion that may fail. It keeps what it has remembered either way. -/
abbrev Expansion := EStateM InlineError Cache

mutual

/--
A selection with all spreads replaced: one selection, or those of a fragment. `expand` says how a
fragment is expanded.
-/
def expandSelection (expand : String → Expansion (List Selection)) :
    Selection → Expansion (List Selection)
  | .node head none => return [.node head none]
  | .node head (some selections) => do
    let expanded ← expandEach expand selections
    return [.node head (some (mergeSelections expanded))]
  | .spread name _ => expand name.text

/-- The expansions of all selections of a list, one after the other. -/
def expandEach (expand : String → Expansion (List Selection)) :
    List Selection → Expansion (List Selection)
  | [] => return []
  | selection :: rest => do
    let first ← expandSelection expand selection
    let others ← expandEach expand rest
    return first ++ others

end

/-- A selection set with all spreads replaced and all siblings merged. -/
def expandSet (expand : String → Expansion (List Selection)) (selections : List Selection) :
    Expansion (List Selection) := do
  return mergeSelections (← expandEach expand selections)

/-- The number of fragments that a path does not lead through. -/
def FragmentMap.unopened (map : FragmentMap) (path : List String) : Nat :=
  map.fragments.countP fun fragment => !path.contains fragment.name.text

/-- Opening a fragment leaves fewer unopened ones. -/
theorem FragmentMap.unopened_append_lt {map : FragmentMap} {path : List String} {name : String}
    {fragment : FragmentDefinition} (found : map.find? name = some fragment)
    (closed : name ∉ path) : map.unopened (path ++ [name]) < map.unopened path := by
  have member := List.mem_of_find?_eq_some found
  have named : fragment.name.text = name := by
    have holds := List.find?_some found
    simpa using holds
  unfold FragmentMap.unopened
  generalize map.fragments = fragments at member
  induction fragments with
  | nil => simp at member
  | cons first rest ih =>
    have fewer : rest.countP (fun fragment => !(path ++ [name]).contains fragment.name.text) ≤
        rest.countP (fun fragment => !path.contains fragment.name.text) := by
      apply List.countP_mono_left
      intro fragment _ unopened
      simp only [List.contains_eq_mem, List.mem_append, Bool.not_eq_true',
        decide_eq_false_iff_not, not_or] at unopened ⊢
      exact unopened.1
    simp only [List.countP_cons]
    rcases List.mem_cons.mp member with rfl | later
    · have before : (!path.contains fragment.name.text) = true := by simp [named, closed]
      have after : (!(path ++ [name]).contains fragment.name.text) = false := by simp [named]
      rw [before, after]
      simp only [Bool.false_eq_true, if_false, if_true]
      omega
    · have fewerLater := ih later
      have notMore : (if (!(path ++ [name]).contains first.name.text) = true then 1 else 0) ≤
          (if (!path.contains first.name.text) = true then 1 else 0) := by
        by_cases opened : first.name.text ∈ path <;> simp [opened]
        split <;> simp
      omega

/--
The expansion of the fragment with a given name, when the fragments of `path` are open. An open
fragment is a cycle, whether or not it is remembered or even defined.
-/
def expandFragment (map : FragmentMap) (path : List String) (name : String) :
    Expansion (List Selection) :=
  if opened : name ∈ path then
    throw (.cyclic (path ++ [name]))
  else do
    match (← get).find? name with
    | some selections => return selections
    | none =>
      match found : map.find? name with
      | none => throw (.unresolved name)
      | some fragment =>
        have := FragmentMap.unopened_append_lt found opened
        let selections ← expandSet (fun inner => expandFragment map (path ++ [name]) inner)
          fragment.selections
        modify (·.insert name selections)
        return selections
termination_by map.unopened path
decreasing_by assumption

/-- A selection set with all spreads replaced, when the fragments of `path` are open. -/
def expandSelections (map : FragmentMap) (path : List String) (selections : List Selection) :
    Expansion (List Selection) :=
  expandSet (expandFragment map path) selections

/-- An operation with all spreads replaced. -/
def expandOperation (map : FragmentMap) (operation : Operation) : Expansion Operation := do
  return operation.withSelections (← expandSelections map [] operation.selections)

/-- All operations with all spreads replaced, in their order. -/
def expandOperations (map : FragmentMap) : List Operation → Expansion (List Operation)
  | [] => return []
  | operation :: rest => do
    let first ← expandOperation map operation
    let others ← expandOperations map rest
    return first :: others

end QueryPrep.Inline
