import QueryPrep.Proofs.Inline.Cache

/-!
# Expanding is substituting and merging

Expanding a fragment merges on the way, level by level, and takes a fragment from the cache
whenever it is there. This file shows that nobody can tell: the expansion succeeds exactly if the
plain substitution does, with the merged form of the same selections, and otherwise fails with the
same error.

The proof follows the fragments that are not open yet, and below that the selections. What a single
expansion does is stated as a relation between the expansion and the substitution (`Refines`). It
says what happens to the cache whatever the path is, because a fragment may only be completed once
everything that it spreads is remembered.
-/

namespace QueryPrep.Inline

open QueryPrep.Graphql Selection

/-- What an expansion may do to a cache while the fragments of `path` are open. -/
structure Cache.Grows (map : FragmentMap) (path : List String) (before after : Cache) : Prop where
  built : after.Built map
  kept : before.entries <+: after.entries
  opened : ∀ name ∈ path, name ∈ after.names → name ∈ before.names

namespace Cache.Grows

variable {map : FragmentMap} {path : List String} {name : String} {before between after : Cache}

theorem refl (built : before.Built map) : Grows map path before before :=
  ⟨built, List.prefix_refl _, fun _ _ member => member⟩

theorem trans (first : Grows map path before between) (second : Grows map path between after) :
    Grows map path before after where
  built := second.built
  kept := first.kept.trans second.kept
  opened := fun name onPath member =>
    first.opened name onPath (second.opened name onPath member)

theorem names_subset (grows : Grows map path before after) : before.names ⊆ after.names := by
  rcases grows.kept with ⟨added, same⟩
  intro name member
  simp only [names] at member ⊢
  rw [← same, List.map_append]
  exact List.mem_append_left _ member

theorem disjoint (grows : Grows map path before after) (apart : path.Disjoint before.names) :
    path.Disjoint after.names :=
  fun _ onPath member => apart onPath (grows.opened _ onPath member)

theorem of_append (grows : Grows map (path ++ [name]) before after) : Grows map path before after :=
  ⟨grows.built, grows.kept, fun name onPath =>
    grows.opened name (List.mem_append_left _ onPath)⟩

/-- The fragment whose body was open last may be completed. -/
theorem insert {selections : List Selection} (grows : Grows map (path ++ [name]) before after)
    (closed : name ∉ path) (completed : (after.insert name selections).Built map) :
    Grows map path before (after.insert name selections) where
  built := completed
  kept := grows.kept.trans (List.prefix_append _ _)
  opened := by
    intro other onPath member
    rw [names_insert, List.mem_append, List.mem_singleton] at member
    rcases member with earlier | rfl
    · exact grows.opened other (List.mem_append_left _ onPath) earlier
    · exact absurd onPath closed

end Cache.Grows

/--
An expansion under `path` that agrees with a substitution. If it succeeds, the names that it needs
are remembered, and the substitution succeeds under every path apart from them; both are merged
alike. If it fails, so does the substitution, provided that no open fragment was remembered.
-/
def Refines (map : FragmentMap) (path needed : List String)
    (expansion : Expansion (List Selection))
    (substitution : List String → Except InlineError (List Selection)) : Prop :=
  ∀ cache : Cache, cache.Built map →
    match expansion.run cache with
    | .ok expanded after => cache.Grows map path after ∧ needed ⊆ after.names ∧
        ∀ other : List String, other.Disjoint after.names →
          ∃ substituted, substitution other = .ok substituted ∧
            mergeSelections expanded = deepMerge substituted
    | .error error after => cache.Grows map path after ∧
        (path.Disjoint cache.names → substitution path = .error error)

namespace Refines

variable {map : FragmentMap} {path needed : List String}

theorem pure {selections substituted : List Selection}
    (merged : mergeSelections selections = deepMerge substituted) :
    Refines map path [] (return selections) fun _ => .ok substituted := by
  intro cache built
  exact ⟨Cache.Grows.refl built, List.nil_subset _, fun _ _ => ⟨substituted, rfl, merged⟩⟩

theorem deepMerge_append_congr {first second third fourth : List Selection}
    (same : mergeSelections first = deepMerge second)
    (others : mergeSelections third = deepMerge fourth) :
    mergeSelections (first ++ third) = deepMerge (second ++ fourth) := by
  rw [deepMerge_eq_mergeSelections] at same others ⊢
  rw [List.map_append]
  exact mergeSelections_append_congr same others

/-- One expansion after another, on the cache that the first one leaves. -/
theorem append {moreNeeded : List String} {expansion more : Expansion (List Selection)}
    {substitution moreSubstitution : List String → Except InlineError (List Selection)}
    (refines : Refines map path needed expansion substitution)
    (moreRefines : Refines map path moreNeeded more moreSubstitution) :
    Refines map path (needed ++ moreNeeded)
      (do
        let first ← expansion
        let others ← more
        return first ++ others)
      fun other => do
        let first ← substitution other
        let others ← moreSubstitution other
        return first ++ others := by
  intro cache built
  have outcome := refines cache built
  simp only [EStateM.run_bind]
  cases ran : expansion.run cache with
  | error error after =>
      rw [ran] at outcome
      refine ⟨outcome.1, ?_⟩
      intro apart
      simp only [outcome.2 apart]
      rfl
  | ok expanded between =>
      rw [ran] at outcome
      rcases outcome with ⟨grows, remembered, agrees⟩
      have moreOutcome := moreRefines between grows.built
      dsimp only
      cases moreRan : more.run between with
      | error error after =>
          rw [moreRan] at moreOutcome
          refine ⟨grows.trans moreOutcome.1, ?_⟩
          intro apart
          rcases agrees path (grows.disjoint apart) with ⟨substituted, succeeds, _⟩
          simp only [succeeds, moreOutcome.2 (grows.disjoint apart)]
          rfl
      | ok others after =>
          rw [moreRan] at moreOutcome
          rcases moreOutcome with ⟨moreGrows, moreRemembered, moreAgrees⟩
          refine ⟨grows.trans moreGrows, ?_, ?_⟩
          · apply List.append_subset.mpr
            exact ⟨List.Subset.trans remembered moreGrows.names_subset, moreRemembered⟩
          · intro other apart
            have apartBefore := List.disjoint_of_subset_right moreGrows.names_subset apart
            rcases agrees other apartBefore with ⟨substituted, succeeds, merged⟩
            rcases moreAgrees other apart with ⟨moreSubstituted, moreSucceeds, moreMerged⟩
            refine ⟨substituted ++ moreSubstituted, ?_, deepMerge_append_congr merged moreMerged⟩
            simp only [succeeds, moreSucceeds]
            rfl

theorem mergeSelections_node_eq {head : Head} {selections substituted : List Selection}
    (merged : mergeSelections selections = deepMerge substituted) :
    mergeSelections [.node head (some (mergeSelections selections))] =
      deepMerge [.node head (some substituted)] := by
  rw [deepMerge_eq_mergeSelections, List.map_singleton, merged]
  rfl

theorem node {expansion : Expansion (List Selection)}
    {substitution : List String → Except InlineError (List Selection)} (head : Head)
    (refines : Refines map path needed expansion substitution) :
    Refines map path needed
      (do
        let expanded ← expansion
        return [.node head (some (mergeSelections expanded))])
      fun other => do
        let substituted ← substitution other
        return [.node head (some substituted)] := by
  intro cache built
  have outcome := refines cache built
  simp only [EStateM.run_bind]
  cases ran : expansion.run cache with
  | error error after =>
      rw [ran] at outcome
      refine ⟨outcome.1, ?_⟩
      intro apart
      simp only [outcome.2 apart]
      rfl
  | ok expanded after =>
      rw [ran] at outcome
      rcases outcome with ⟨grows, remembered, agrees⟩
      refine ⟨grows, remembered, ?_⟩
      intro other apart
      rcases agrees other apart with ⟨substituted, succeeds, merged⟩
      refine ⟨[.node head (some substituted)], ?_, mergeSelections_node_eq merged⟩
      simp only [succeeds]
      rfl

variable {expand : String → Expansion (List Selection)}
  {replace : List String → String → Except InlineError (List Selection)}

mutual

theorem expandSelection (selection : Selection)
    (refines : ∀ name, Refines map path [name] (expand name) (replace · name)) :
    Refines map path selection.spreads (expandSelection expand selection)
      fun other => substituteSelection (replace other) selection := by
  cases selection with
  | node head set =>
      cases set with
      | none =>
          simp only [Inline.expandSelection, substituteSelection, spreads]
          apply pure
          rw [deepMerge_eq_mergeSelections]
          rfl
      | some selections =>
          simp only [Inline.expandSelection, substituteSelection, spreads]
          exact node head (expandEach selections refines)
  | spread name directives =>
      simp only [Inline.expandSelection, substituteSelection, spreads]
      exact refines name.text

theorem expandEach (selections : List Selection)
    (refines : ∀ name, Refines map path [name] (expand name) (replace · name)) :
    Refines map path (spreadsEach selections) (expandEach expand selections)
      fun other => substituteEach (replace other) selections := by
  cases selections with
  | nil =>
      simp only [Inline.expandEach, substituteEach, spreadsEach]
      apply pure
      rw [deepMerge_eq_mergeSelections]
      rfl
  | cons selection rest =>
      simp only [Inline.expandEach, substituteEach, spreadsEach]
      exact append (expandSelection selection refines) (expandEach rest refines)

end

end Refines

section Fragments

variable {map : FragmentMap} {path : List String} {name : String} {cache : Cache}

theorem run_expandFragment_of_mem (opened : name ∈ path) :
    (expandFragment map path name).run cache = .error (.cyclic (path ++ [name])) cache := by
  rw [expandFragment, dif_pos opened]
  rfl

theorem run_expandFragment_of_remembered {selections : List Selection} (closed : name ∉ path)
    (remembered : cache.find? name = some selections) :
    (expandFragment map path name).run cache = .ok selections cache := by
  rw [expandFragment, dif_neg closed, EStateM.run_bind, EStateM.run_get]
  simp only [remembered, EStateM.run_pure]

theorem run_expandFragment_of_undefined (closed : name ∉ path) (fresh : cache.find? name = none)
    (missing : map.find? name = none) :
    (expandFragment map path name).run cache = .error (.unresolved name) cache := by
  rw [expandFragment, dif_neg closed, EStateM.run_bind, EStateM.run_get]
  simp only [fresh]
  split
  case h_1 => rfl
  case h_2 fragment found => simp [missing] at found

theorem run_expandFragment_of_defined {fragment : FragmentDefinition} (closed : name ∉ path)
    (fresh : cache.find? name = none) (found : map.find? name = some fragment) :
    (expandFragment map path name).run cache =
      match (expandEach (expandFragment map (path ++ [name])) fragment.selections).run cache with
      | .ok expanded after =>
          .ok (mergeSelections expanded) (after.insert name (mergeSelections expanded))
      | .error error after => .error error after := by
  rw [expandFragment, dif_neg closed, EStateM.run_bind, EStateM.run_get]
  simp only [fresh]
  split
  case h_1 missing => simp [missing] at found
  case h_2 other otherFound =>
      rw [found, Option.some.injEq] at otherFound
      subst other
      simp only [expandSet, EStateM.run_bind, EStateM.run_modify, EStateM.run_pure]
      cases (expandEach (expandFragment map (path ++ [name])) fragment.selections).run cache <;> rfl

theorem substituteFragment_of_remembered {selections : List Selection}
    (built : cache.Built map) (remembered : cache.find? name = some selections)
    (other : List String) (apart : other.Disjoint cache.names) :
    ∃ substituted, substituteFragment map other name = .ok substituted ∧
      mergeSelections selections = deepMerge substituted := by
  rcases built.substituteFragment_eq remembered with ⟨substituted, rfl, independent⟩
  refine ⟨substituted, independent other apart, ?_⟩
  rw [deepMerge_eq_mergeSelections, mergeSelections_mergeSelections]

theorem built_insert {after : Cache} {fragment : FragmentDefinition} {expanded : List Selection}
    (built : after.Built map) (fresh : name ∉ after.names)
    (found : map.find? name = some fragment)
    (closed : spreadsEach fragment.selections ⊆ after.names)
    (agrees : ∀ other : List String, other.Disjoint after.names → ∃ substituted,
      substituteEach (substituteFragment map other) fragment.selections = .ok substituted ∧
        mergeSelections expanded = deepMerge substituted) :
    (after.insert name (mergeSelections expanded)).Built map := by
  have apart : [name].Disjoint after.names := List.singleton_disjoint.mpr fresh
  rcases agrees [name] apart with ⟨substituted, succeeds, merged⟩
  rw [merged]
  apply built.insert fresh found closed
  rw [substituteFragment_of_find?_eq_some List.not_mem_nil found]
  exact succeeds

/-- The expansion of every fragment agrees with its substitution. -/
theorem refines_expandFragment (map : FragmentMap) (path : List String) (name : String) :
    Refines map path [name] (expandFragment map path name) (substituteFragment map · name) := by
  intro cache built
  by_cases opened : name ∈ path
  · rw [run_expandFragment_of_mem opened]
    exact ⟨Cache.Grows.refl built, fun _ => substituteFragment_of_mem opened⟩
  cases remembered : cache.find? name with
  | some selections =>
      rw [run_expandFragment_of_remembered opened remembered]
      refine ⟨Cache.Grows.refl built, ?_, substituteFragment_of_remembered built remembered⟩
      simpa using Cache.mem_names_of_find? remembered
  | none =>
      cases found : map.find? name with
      | none =>
          rw [run_expandFragment_of_undefined opened remembered found]
          exact ⟨Cache.Grows.refl built,
            fun _ => substituteFragment_of_find?_eq_none opened found⟩
      | some fragment =>
          have fresh : name ∉ cache.names := by
            simp [← Cache.exists_find?_iff_mem_names, remembered]
          have outcome := Refines.expandEach fragment.selections
            (fun inner => refines_expandFragment map (path ++ [name]) inner) cache built
          rw [run_expandFragment_of_defined opened remembered found]
          cases ran : (expandEach (expandFragment map (path ++ [name]))
              fragment.selections).run cache with
          | error error after =>
              rw [ran] at outcome
              refine ⟨outcome.1.of_append, ?_⟩
              intro apart
              rw [← outcome.2 (List.disjoint_append_left.mpr
                ⟨apart, List.singleton_disjoint.mpr fresh⟩)]
              exact substituteFragment_of_find?_eq_some opened found
          | ok expanded after =>
              rw [ran] at outcome
              rcases outcome with ⟨grows, closed, agrees⟩
              -- The fragment is open itself, so expanding its selections did not complete it.
              have stillFresh : name ∉ after.names :=
                fun member => fresh (grows.opened name (by simp) member)
              have completed := built_insert grows.built stillFresh found closed agrees
              refine ⟨grows.insert opened completed, by simp, ?_⟩
              exact substituteFragment_of_remembered completed (Cache.find?_insert_self stillFresh)
termination_by map.unopened path
decreasing_by exact FragmentMap.unopened_append_lt found opened

end Fragments

section Operations

variable {map : FragmentMap} {cache : Cache}

/-- The expansion of an operation is its substitution, merged. -/
theorem run_expandOperation (built : cache.Built map) (operation : Operation) :
    match (expandOperation map operation).run cache with
    | .ok expanded after => cache.Grows map [] after ∧ ∃ substituted,
        substituteOperation map operation = .ok substituted ∧
          expanded = normalizeOperation substituted
    | .error error after => cache.Grows map [] after ∧
        substituteOperation map operation = .error error := by
  have outcome := Refines.expandEach operation.selections
    (fun inner => refines_expandFragment map [] inner) cache built
  simp only [expandOperation, expandSelections, expandSet, EStateM.run_bind]
  cases ran : (expandEach (expandFragment map []) operation.selections).run cache with
  | error error after =>
      rw [ran] at outcome
      refine ⟨outcome.1, substituteOperation_eq_error_iff.mpr ?_⟩
      exact outcome.2 (List.disjoint_nil_left _)
  | ok expanded after =>
      rw [ran] at outcome
      rcases outcome with ⟨grows, _, agrees⟩
      rcases agrees [] (List.disjoint_nil_left _) with ⟨substituted, succeeds, merged⟩
      refine ⟨grows, operation.withSelections substituted, ?_, ?_⟩
      · exact substituteOperation_eq_ok_iff.mpr ⟨substituted, succeeds, rfl⟩
      · rw [merged]
        rfl

theorem run_expandOperations (built : cache.Built map) (operations : List Operation) :
    match (expandOperations map operations).run cache with
    | .ok expanded after => cache.Grows map [] after ∧ ∃ substituted,
        operations.mapM (substituteOperation map) = .ok substituted ∧
          expanded = substituted.map normalizeOperation
    | .error error after => cache.Grows map [] after ∧
        operations.mapM (substituteOperation map) = .error error := by
  induction operations generalizing cache with
  | nil => exact ⟨Cache.Grows.refl built, [], rfl, rfl⟩
  | cons operation rest ih =>
      have outcome := run_expandOperation built operation
      simp only [expandOperations, List.mapM_cons, EStateM.run_bind]
      cases ran : (expandOperation map operation).run cache with
      | error error between =>
          rw [ran] at outcome
          refine ⟨outcome.1, ?_⟩
          rw [outcome.2]
          rfl
      | ok first between =>
          rw [ran] at outcome
          rcases outcome with ⟨grows, substituted, succeeds, rfl⟩
          have others := ih grows.built
          dsimp only
          cases restRan : (expandOperations map rest).run between with
          | error error after =>
              rw [restRan] at others
              refine ⟨grows.trans others.1, ?_⟩
              rw [succeeds, others.2]
              rfl
          | ok expanded after =>
              rw [restRan] at others
              rcases others with ⟨restGrows, restSubstituted, restSucceeds, rfl⟩
              refine ⟨grows.trans restGrows, substituted :: restSubstituted, ?_, rfl⟩
              rw [succeeds, restSucceeds]
              rfl

end Operations

section Documents

variable {strictness : Strictness} {document inlined : Document} {map : FragmentMap}

/-- What was remembered before does not show in the operations of an inliner. -/
theorem Inliner.inline_fst {inliner : Inliner} (built : inliner.cache.Built inliner.fragments) :
    inliner.inline.1 =
      (inliner.document.operations.mapM (substituteOperation inliner.fragments)).map
        fun substituted => Document.ofOperations (substituted.map normalizeOperation) := by
  have outcome := run_expandOperations built inliner.document.operations
  rw [Inliner.inline, Inliner.run, EStateM.run_bind]
  cases expanded : (expandOperations inliner.fragments inliner.document.operations).run
      inliner.cache with
  | error error after =>
      rw [expanded] at outcome
      rw [outcome.2]
      rfl
  | ok operations after =>
      rw [expanded] at outcome
      rcases outcome with ⟨_, substituted, succeeds, rfl⟩
      rw [succeeds]
      rfl

theorem inlineDocument_eq_of_ofDocument
    (mapped : FragmentMap.ofDocument strictness document = .ok map) :
    inlineDocument strictness document =
      (document.operations.mapM (substituteOperation map)).map fun substituted =>
        Document.ofOperations (substituted.map normalizeOperation) := by
  have started : Inliner.start strictness document = .ok ⟨document, map, Cache.empty⟩ := by
    rw [Inliner.start, mapped]
    rfl
  have built : Cache.empty.Built map := .empty
  rw [inlineDocument, started]
  exact Inliner.inline_fst built

/-- What an inlined document holds, operation by operation. -/
theorem exists_of_inlineDocument_eq_ok
    (succeeds : inlineDocument strictness document = .ok inlined) :
    ∃ map, FragmentMap.ofDocument strictness document = .ok map ∧
      inlined = Document.ofOperations inlined.operations ∧
      List.Forall₂
        (fun before after => ∃ substituted,
          substituteEach (substituteFragment map []) before.selections = .ok substituted ∧
            after = before.withSelections (deepMerge substituted))
        document.operations inlined.operations := by
  cases mapped : FragmentMap.ofDocument strictness document with
  | error error =>
      simp [inlineDocument, Inliner.start, mapped, bind, Except.bind] at succeeds
  | ok map =>
      rw [inlineDocument_eq_of_ofDocument mapped] at succeeds
      cases replaced : document.operations.mapM (substituteOperation map) with
      | error error => simp [replaced, Except.map] at succeeds
      | ok substituted =>
          simp only [replaced, Except.map, Except.ok.injEq] at succeeds
          subst inlined
          refine ⟨map, rfl, by simp, ?_⟩
          rw [Document.operations_ofOperations, List.forall₂_map_right_iff]
          apply (forall₂_of_mapM_substituteOperation_eq_ok replaced).imp
          intro before after operationReplaced
          rcases substituteOperation_eq_ok_iff.mp operationReplaced with
            ⟨selections, selectionsReplaced, rfl⟩
          exact ⟨selections, selectionsReplaced, rfl⟩

/--
Inlining agrees with the plain description in two phases, on every document and in both modes: the
same operations in the same order, or the same error. An operation keeps everything but its
selections.
-/
theorem inlineDocument_eq_substituteThenMerge (strictness : Strictness) (document : Document) :
    inlineDocument strictness document = substituteThenMerge strictness document ∧
      ∀ inlined, inlineDocument strictness document = .ok inlined →
        List.Forall₂ (fun before after => ∃ selections, after = before.withSelections selections)
          document.operations inlined.operations := by
  constructor
  · cases mapped : FragmentMap.ofDocument strictness document with
    | error error =>
        simp only [inlineDocument, Inliner.start, substituteThenMerge, mapped]
        rfl
    | ok map =>
        rw [inlineDocument_eq_of_ofDocument mapped]
        simp only [substituteThenMerge, mapped]
        rfl
  · intro inlined succeeds
    rcases exists_of_inlineDocument_eq_ok succeeds with ⟨map, _, _, agree⟩
    apply agree.imp
    rintro before after ⟨substituted, _, rfl⟩
    exact ⟨_, rfl⟩

end Documents

section Sample

/-- A field without arguments and directives. -/
private def plainField (name : Name) (selections : Option (List Selection)) : Selection :=
  .node (.field none name [] []) selections

/-- A query for the name of a user. The fragment that it spreads asks for the identity as well. -/
def userQuery : Document where
  definitions := [
    .operation {
      description := none
      kind := .query
      name := none
      variableDefinitions := []
      directives := []
      selections := [
        .spread ⟨"Identity", rfl⟩ [],
        plainField ⟨"user", rfl⟩ (some [plainField ⟨"name", rfl⟩ none])]
    },
    .fragment {
      description := none
      name := ⟨"Identity", rfl⟩
      typeCondition := ⟨"Query", rfl⟩
      directives := []
      selections := [plainField ⟨"user", rfl⟩ (some [plainField ⟨"id", rfl⟩ none])]
    }]

theorem exists_eq_ok_of_isOk {outcome : Except InlineError Document}
    (succeeds : outcome.isOk = true) : ∃ inlined, outcome = .ok inlined := by
  cases outcome with
  | ok inlined => exact ⟨inlined, rfl⟩
  | error error => simp [Except.isOk, Except.toBool] at succeeds

theorem exists_inlineDocument_userQuery_eq_ok :
    ∃ inlined, inlineDocument .lenient userQuery = .ok inlined := by
  apply exists_eq_ok_of_isOk
  decide +kernel

end Sample

end QueryPrep.Inline
