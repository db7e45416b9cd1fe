import QueryPrep.Inline.Inliner
import QueryPrep.Proofs.Merge.DeepMerge
import Mathlib.Data.List.Forall2

/-!
# Substituting spreads

The plain description of inlining has two phases. The first replaces every spread by the raw
selections of the fragment that it names, depth first, and remembers nothing. The second merges
each operation once, from the top down.

What a substitution gives depends on nothing but the names that are spread in the selections. That
is what makes it possible to tell later why a remembered fragment may be used under another path.
-/

namespace QueryPrep.Graphql.Selection

mutual

/-- The names that are spread anywhere in a selection. -/
def spreads : Selection → List String
  | .node _ none => []
  | .node _ (some selections) => spreadsEach selections
  | .spread name _ => [name.text]

/-- The names that are spread anywhere in any of the selections. -/
def spreadsEach : List Selection → List String
  | [] => []
  | selection :: rest => selection.spreads ++ spreadsEach rest

end

end QueryPrep.Graphql.Selection

namespace QueryPrep.Inline

open QueryPrep.Graphql Selection

mutual

/-- A selection with all spreads replaced, and nothing else changed. -/
def substituteSelection (replace : String → Except InlineError (List Selection)) :
    Selection → Except InlineError (List Selection)
  | .node head none => return [.node head none]
  | .node head (some selections) => do
    let substituted ← substituteEach replace selections
    return [.node head (some substituted)]
  | .spread name _ => replace name.text

/-- The substitutions of all selections of a list, one after the other. -/
def substituteEach (replace : String → Except InlineError (List Selection)) :
    List Selection → Except InlineError (List Selection)
  | [] => return []
  | selection :: rest => do
    let first ← substituteSelection replace selection
    let others ← substituteEach replace rest
    return first ++ others

end

/-- What a spread of a fragment stands for, when the fragments of `path` are open. -/
def substituteFragment (map : FragmentMap) (path : List String) (name : String) :
    Except InlineError (List Selection) :=
  if opened : name ∈ path then
    throw (.cyclic (path ++ [name]))
  else
    match found : map.find? name with
    | none => throw (.unresolved name)
    | some fragment =>
      have := FragmentMap.unopened_append_lt found opened
      substituteEach (fun inner => substituteFragment map (path ++ [name]) inner)
        fragment.selections
termination_by map.unopened path
decreasing_by assumption

/-- An operation with all spreads replaced. -/
def substituteOperation (map : FragmentMap) (operation : Operation) :
    Except InlineError Operation := do
  return operation.withSelections
    (← substituteEach (substituteFragment map []) operation.selections)

/-- An operation merged once, from the top down. -/
def normalizeOperation (operation : Operation) : Operation :=
  operation.withSelections (deepMerge operation.selections)

/-- The operations of a document, first substituted and then merged. -/
def substituteThenMerge (strictness : Strictness) (document : Document) :
    Except InlineError Document := do
  let map ← FragmentMap.ofDocument strictness document
  let substituted ← document.operations.mapM (substituteOperation map)
  return Document.ofOperations (substituted.map normalizeOperation)

section Fragments

variable {map : FragmentMap} {path : List String} {name : String}

theorem substituteFragment_of_mem (opened : name ∈ path) :
    substituteFragment map path name = .error (.cyclic (path ++ [name])) := by
  rw [substituteFragment, dif_pos opened]
  rfl

theorem substituteFragment_of_find?_eq_none (closed : name ∉ path)
    (missing : map.find? name = none) :
    substituteFragment map path name = .error (.unresolved name) := by
  rw [substituteFragment, dif_neg closed]
  split
  case h_1 => rfl
  case h_2 fragment found => simp [missing] at found

theorem substituteFragment_of_find?_eq_some {fragment : FragmentDefinition} (closed : name ∉ path)
    (found : map.find? name = some fragment) :
    substituteFragment map path name =
      substituteEach (substituteFragment map (path ++ [name])) fragment.selections := by
  rw [substituteFragment, dif_neg closed]
  split
  case h_1 missing => simp [missing] at found
  case h_2 other otherFound =>
      rw [found, Option.some.injEq] at otherFound
      subst other
      rfl

/-- What a substituted fragment has been made of. -/
theorem exists_of_substituteFragment_eq_ok {substituted : List Selection}
    (succeeds : substituteFragment map path name = .ok substituted) :
    name ∉ path ∧ ∃ fragment, map.find? name = some fragment ∧
      substituteEach (substituteFragment map (path ++ [name])) fragment.selections =
        .ok substituted := by
  by_cases passed : name ∈ path
  · simp [substituteFragment_of_mem passed] at succeeds
  refine ⟨passed, ?_⟩
  cases found : map.find? name with
  | none => simp [substituteFragment_of_find?_eq_none passed found] at succeeds
  | some fragment =>
      rw [substituteFragment_of_find?_eq_some passed found] at succeeds
      exact ⟨fragment, rfl, succeeds⟩

end Fragments

section Congruence

variable {replace other : String → Except InlineError (List Selection)}

mutual

theorem substituteSelection_congr (selection : Selection)
    (agree : ∀ name ∈ selection.spreads, replace name = other name) :
    substituteSelection replace selection = substituteSelection other selection := by
  cases selection with
  | node head set =>
      cases set with
      | none => rfl
      | some selections =>
          rw [substituteSelection, substituteSelection,
            substituteEach_congr selections agree]
  | spread name directives => exact agree name.text (by simp [spreads])

/-- A substitution depends on the names that are spread and on nothing else. -/
theorem substituteEach_congr (selections : List Selection)
    (agree : ∀ name ∈ spreadsEach selections, replace name = other name) :
    substituteEach replace selections = substituteEach other selections := by
  cases selections with
  | nil => rfl
  | cons selection rest =>
      simp only [spreadsEach, List.mem_append] at agree
      rw [substituteEach, substituteEach,
        substituteSelection_congr selection fun name spread => agree name (Or.inl spread),
        substituteEach_congr rest fun name spread => agree name (Or.inr spread)]

end

end Congruence

section Outcomes

variable {replace : String → Except InlineError (List Selection)}
variable {substituted selections : List Selection} {error : InlineError}

theorem substituteSelection_node_eq_ok_iff {head : Head} :
    substituteSelection replace (.node head (some selections)) = .ok substituted ↔
      ∃ below, substituteEach replace selections = .ok below ∧
        [.node head (some below)] = substituted := by
  rw [substituteSelection]
  cases substituteEach replace selections <;> simp [bind, Except.bind, pure, Except.pure]

theorem substituteSelection_node_eq_error_iff {head : Head} :
    substituteSelection replace (.node head (some selections)) = .error error ↔
      substituteEach replace selections = .error error := by
  rw [substituteSelection]
  cases substituteEach replace selections <;> simp [bind, Except.bind, pure, Except.pure]

theorem substituteEach_cons_eq_ok_iff {selection : Selection} :
    substituteEach replace (selection :: selections) = .ok substituted ↔
      ∃ first others, substituteSelection replace selection = .ok first ∧
        substituteEach replace selections = .ok others ∧ first ++ others = substituted := by
  rw [substituteEach]
  cases substituteSelection replace selection <;> cases substituteEach replace selections <;>
    simp [bind, Except.bind, pure, Except.pure]

mutual

theorem exists_ok_of_substituteSelection_eq_ok {selection : Selection}
    {substituted : List Selection}
    (succeeds : substituteSelection replace selection = .ok substituted) :
    ∀ name ∈ selection.spreads, ∃ replacement, replace name = .ok replacement := by
  cases selection with
  | node head set =>
      cases set with
      | none => simp [spreads]
      | some selections =>
          rcases substituteSelection_node_eq_ok_iff.mp succeeds with ⟨below, belowSucceeds, _⟩
          exact exists_ok_of_substituteEach_eq_ok belowSucceeds
  | spread name directives =>
      intro other spread
      rw [spreads, List.mem_singleton] at spread
      subst other
      exact ⟨substituted, succeeds⟩

theorem exists_ok_of_substituteEach_eq_ok {selections substituted : List Selection}
    (succeeds : substituteEach replace selections = .ok substituted) :
    ∀ name ∈ spreadsEach selections, ∃ replacement, replace name = .ok replacement := by
  cases selections with
  | nil => simp [spreadsEach]
  | cons selection rest =>
      rcases substituteEach_cons_eq_ok_iff.mp succeeds with
        ⟨first, others, firstSucceeds, othersSucceed, _⟩
      intro name spread
      rw [spreadsEach, List.mem_append] at spread
      rcases spread with here | later
      · exact exists_ok_of_substituteSelection_eq_ok firstSucceeds name here
      · exact exists_ok_of_substituteEach_eq_ok othersSucceed name later

end

mutual

theorem exists_error_of_substituteSelection_eq_error {selection : Selection}
    (fails : substituteSelection replace selection = .error error) :
    ∃ name ∈ selection.spreads, replace name = .error error := by
  cases selection with
  | node head set =>
      cases set with
      | none => simp [substituteSelection, pure, Except.pure] at fails
      | some selections =>
          exact exists_error_of_substituteEach_eq_error
            (substituteSelection_node_eq_error_iff.mp fails)
  | spread name directives => exact ⟨name.text, by simp [spreads], fails⟩

theorem exists_error_of_substituteEach_eq_error {selections : List Selection}
    (fails : substituteEach replace selections = .error error) :
    ∃ name ∈ spreadsEach selections, replace name = .error error := by
  cases selections with
  | nil => simp [substituteEach, pure, Except.pure] at fails
  | cons selection rest =>
      cases first : substituteSelection replace selection with
      | error firstError =>
          simp only [substituteEach, first, bind, Except.bind, Except.error.injEq] at fails
          subst firstError
          rcases exists_error_of_substituteSelection_eq_error first with ⟨name, spread, cause⟩
          exact ⟨name, List.mem_append_left _ spread, cause⟩
      | ok substituted =>
          cases others : substituteEach replace rest with
          | ok restSubstituted =>
              simp [substituteEach, first, others, bind, Except.bind, pure, Except.pure] at fails
          | error restError =>
              simp only [substituteEach, first, others, bind, Except.bind,
                Except.error.injEq] at fails
              subst restError
              rcases exists_error_of_substituteEach_eq_error others with ⟨name, spread, cause⟩
              exact ⟨name, List.mem_append_right _ spread, cause⟩

end

end Outcomes

section Operations

variable {map : FragmentMap} {operations substitutedEach : List Operation} {error : InlineError}

theorem substituteOperation_eq_ok_iff {operation substituted : Operation} :
    substituteOperation map operation = .ok substituted ↔
      ∃ selections, substituteEach (substituteFragment map []) operation.selections =
        .ok selections ∧ operation.withSelections selections = substituted := by
  rw [substituteOperation]
  cases substituteEach (substituteFragment map []) operation.selections <;>
    simp [bind, Except.bind, pure, Except.pure]

theorem substituteOperation_eq_error_iff {operation : Operation} :
    substituteOperation map operation = .error error ↔
      substituteEach (substituteFragment map []) operation.selections = .error error := by
  rw [substituteOperation]
  cases substituteEach (substituteFragment map []) operation.selections <;>
    simp [bind, Except.bind, pure, Except.pure]

theorem forall₂_of_mapM_substituteOperation_eq_ok
    (succeeds : operations.mapM (substituteOperation map) = .ok substitutedEach) :
    List.Forall₂ (fun before after => substituteOperation map before = .ok after)
      operations substitutedEach := by
  induction operations generalizing substitutedEach with
  | nil =>
      simp only [List.mapM_nil, pure, Except.pure, Except.ok.injEq] at succeeds
      subst substitutedEach
      exact .nil
  | cons operation rest ih =>
      rw [List.mapM_cons] at succeeds
      cases first : substituteOperation map operation with
      | error error => simp [first, bind, Except.bind] at succeeds
      | ok substituted =>
          cases others : rest.mapM (substituteOperation map) with
          | error error => simp [first, others, bind, Except.bind] at succeeds
          | ok restSubstituted =>
              simp only [first, others, bind, Except.bind, pure, Except.pure,
                Except.ok.injEq] at succeeds
              subst substitutedEach
              exact .cons first (ih others)

theorem exists_of_mapM_substituteOperation_eq_error
    (fails : operations.mapM (substituteOperation map) = .error error) :
    ∃ operation ∈ operations, substituteOperation map operation = .error error := by
  induction operations with
  | nil => simp [pure, Except.pure] at fails
  | cons operation rest ih =>
      rw [List.mapM_cons] at fails
      cases first : substituteOperation map operation with
      | error cause =>
          simp only [first, bind, Except.bind, Except.error.injEq] at fails
          subst cause
          exact ⟨operation, List.mem_cons_self, first⟩
      | ok substituted =>
          cases others : rest.mapM (substituteOperation map) with
          | ok restSubstituted =>
              simp [first, others, bind, Except.bind, pure, Except.pure] at fails
          | error cause =>
              simp only [first, others, bind, Except.bind, Except.error.injEq] at fails
              subst cause
              rcases ih others with ⟨other, member, otherFails⟩
              exact ⟨other, List.mem_cons_of_mem _ member, otherFails⟩

end Operations

end QueryPrep.Inline
