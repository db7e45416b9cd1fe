import QueryPrep.Proofs.Inline.FragmentGraph
import QueryPrep.Proofs.Inline.Refinement

/-!
# Asking one inliner several times

An inliner may be asked for its operations, for fragments and for selection sets, in any order and
under any path, and some of the answers may be errors. All that is left of a call is what it has
added to the cache. This file shows that no later answer depends on it: the cache is built up in the
order of the spreads, whichever calls have filled it, and what it holds is what a fresh inliner
would expand.

A path matters in one way only. It may turn an expansion into an error; an expansion that succeeds
under some path is the expansion under the empty one.
-/

namespace QueryPrep.Inline

open QueryPrep.Graphql Selection

/-- Something that an inliner can be asked for. -/
inductive Call
  | inline
  | expand (path : List String) (name : String)
  | expandSet (path : List String) (selections : List Selection)

/-- The same call when no fragment is open. -/
def Call.unopened : Call → Call
  | .inline => .inline
  | .expand _ name => .expand [] name
  | .expandSet _ selections => .expandSet [] selections

/-- What an inliner answers. -/
inductive Answer
  | document (inlined : Document)
  | selections (expanded : List Selection)

namespace Inliner

/-- The answer to a call, and the inliner after it. -/
def call (inliner : Inliner) : Call → Except InlineError Answer × Inliner
  | .inline => inliner.inline.map (·.map .document) id
  | .expand path name => (inliner.expand path name).map (·.map .selections) id
  | .expandSet path selections => (inliner.expandSet path selections).map (·.map .selections) id

/-- The inliner after several calls, whatever they answered. -/
def after (inliner : Inliner) (calls : List Call) : Inliner :=
  calls.foldl (fun inliner call => (inliner.call call).2) inliner

end Inliner

/--
A cache in which every name occurs once, after all the names that its fragment spreads, and with
the selections that a fresh inliner expands it to.
-/
structure Cache.Faithful (document : Document) (fresh : Inliner) (cache : Cache) : Prop where
  distinct : cache.names.Nodup
  ordered : ∀ before name selections later,
    cache.entries = before ++ (name, selections) :: later →
      ∃ fragment, document.lastFragment? name = some fragment ∧
        ∀ inner ∈ spreadsEach fragment.selections, inner ∈ before.map Prod.fst
  expanded : ∀ name selections, (name, selections) ∈ cache.entries →
    (fresh.expand [] name).1 = .ok selections

/--
An expansion whose answer is the merged form of a substitution. Where it succeeds, the substitution
succeeds when no fragment is open. Where it fails under a path that names nothing in the cache, the
substitution fails with the same error under that path.
-/
def Yields (map : FragmentMap) (path : List String) (expansion : Expansion (List Selection))
    (substitution : List String → Except InlineError (List Selection)) : Prop :=
  ∀ cache : Cache, cache.Built map →
    match expansion.run cache with
    | .ok expanded after => cache.Grows map path after ∧
        ∃ substituted, substitution [] = .ok substituted ∧ expanded = deepMerge substituted
    | .error error after => cache.Grows map path after ∧
        (path.Disjoint cache.names → substitution path = .error error)

section Expansions

variable {map : FragmentMap} {path : List String} {name : String} {cache after : Cache}
variable {expanded : List Selection}

/-- Whatever a fragment is expanded to has been merged. -/
theorem mergeSelections_of_run_expandFragment (built : cache.Built map)
    (ran : (expandFragment map path name).run cache = .ok expanded after) :
    mergeSelections expanded = expanded := by
  by_cases opened : name ∈ path
  · simp [run_expandFragment_of_mem opened] at ran
  cases remembered : cache.find? name with
  | some selections =>
      rw [run_expandFragment_of_remembered opened remembered] at ran
      cases ran
      rcases built.substituteFragment_eq remembered with ⟨substituted, rfl, _⟩
      rw [deepMerge_eq_mergeSelections, mergeSelections_mergeSelections]
  | none =>
      cases found : map.find? name with
      | none => simp [run_expandFragment_of_undefined opened remembered found] at ran
      | some fragment =>
          rw [run_expandFragment_of_defined opened remembered found] at ran
          split at ran
          · cases ran
            exact mergeSelections_mergeSelections _
          · cases ran

theorem yields_expandFragment (map : FragmentMap) (path : List String) (name : String) :
    Yields map path (expandFragment map path name) (substituteFragment map · name) := by
  intro cache built
  have outcome := refines_expandFragment map path name cache built
  cases ran : (expandFragment map path name).run cache with
  | error error after =>
      rw [ran] at outcome
      exact outcome
  | ok expanded after =>
      rw [ran] at outcome
      rcases outcome with ⟨grows, _, agrees⟩
      -- The empty path meets no cache, so it is the one under which answers can be compared.
      rcases agrees [] (List.disjoint_nil_left _) with ⟨substituted, succeeds, merged⟩
      refine ⟨grows, substituted, succeeds, ?_⟩
      rw [← merged, mergeSelections_of_run_expandFragment built ran]

theorem yields_expandSelections (map : FragmentMap) (path : List String)
    (selections : List Selection) :
    Yields map path (expandSelections map path selections)
      fun other => substituteEach (substituteFragment map other) selections := by
  intro cache built
  have outcome := Refines.expandEach selections
    (fun inner => refines_expandFragment map path inner) cache built
  simp only [expandSelections, expandSet, EStateM.run_bind]
  cases ran : (expandEach (expandFragment map path) selections).run cache with
  | error error after =>
      rw [ran] at outcome
      exact outcome
  | ok expanded after =>
      rw [ran] at outcome
      rcases outcome with ⟨grows, _, agrees⟩
      exact ⟨grows, agrees [] (List.disjoint_nil_left _)⟩

end Expansions

section Caches

variable {map : FragmentMap} {document : Document} {cache : Cache}

theorem Cache.Built.nodup_names (built : cache.Built map) : cache.names.Nodup := by
  induction built with
  | empty => exact List.nodup_nil
  | insert _ fresh _ _ _ ih =>
      rw [names_insert, ← List.concat_eq_append, List.nodup_concat]
      exact ⟨fresh, ih⟩

/-- Every entry was completed after all that its fragment spreads, whatever was completed later. -/
theorem Cache.Built.exists_of_entries_eq {before later : List (String × List Selection)}
    {name : String} {selections : List Selection} (built : cache.Built map)
    (entries : cache.entries = before ++ (name, selections) :: later) :
    ∃ fragment substituted, map.find? name = some fragment ∧
      (∀ inner ∈ spreadsEach fragment.selections, inner ∈ before.map Prod.fst) ∧
      substituteFragment map [] name = .ok substituted ∧ selections = deepMerge substituted := by
  induction built generalizing later with
  | empty => simp [Cache.empty] at entries
  | @insert cache completed fragment substituted _ _ found closed substitutes ih =>
      -- The entry is the one that was added last, or it has been among the earlier ones.
      rcases List.eq_nil_or_concat later with rfl | ⟨earlier, last, rfl⟩
      · rcases List.append_inj' entries rfl with ⟨rfl, same⟩
        simp only [List.cons.injEq, Prod.mk.injEq, and_true] at same
        rcases same with ⟨rfl, rfl⟩
        exact ⟨fragment, substituted, found, closed, substitutes, rfl⟩
      · rw [List.concat_eq_append, ← List.cons_append, ← List.append_assoc] at entries
        exact ih (List.append_inj' entries rfl).1

theorem Cache.Built.faithful {fresh : Inliner} (built : cache.Built fresh.fragments)
    (agrees : ∀ name, fresh.fragments.find? name = document.lastFragment? name)
    (expands : ∀ name substituted, substituteFragment fresh.fragments [] name = .ok substituted →
      (fresh.expand [] name).1 = .ok (deepMerge substituted)) :
    cache.Faithful document fresh where
  distinct := built.nodup_names
  ordered := by
    intro before name selections later entries
    rcases built.exists_of_entries_eq entries with ⟨fragment, _, found, closed, _⟩
    exact ⟨fragment, agrees name ▸ found, closed⟩
  expanded := by
    intro name selections member
    rcases List.append_of_mem member with ⟨before, later, entries⟩
    rcases built.exists_of_entries_eq entries with ⟨_, substituted, _, _, substitutes, rfl⟩
    exact expands name substituted substitutes

end Caches

theorem Cache.Grows.unopened {map : FragmentMap} {path : List String} {before after : Cache}
    (grows : Cache.Grows map path before after) : Cache.Grows map [] before after where
  built := grows.built
  kept := grows.kept
  opened := by simp

namespace Inliner

variable {inliner fresh : Inliner} {path : List String} {expanded : List Selection}
variable {expansion unopened : Expansion (List Selection)}
variable {substitution : List String → Except InlineError (List Selection)}

/-- An inliner for the same document whose cache may hold more. -/
structure Grown (inliner later : Inliner) : Prop where
  document_eq : later.document = inliner.document
  fragments_eq : later.fragments = inliner.fragments
  grows : Cache.Grows inliner.fragments [] inliner.cache later.cache

theorem Grown.refl (built : inliner.cache.Built inliner.fragments) : Grown inliner inliner :=
  ⟨rfl, rfl, Cache.Grows.refl built⟩

theorem Grown.trans {between later : Inliner} (first : Grown inliner between)
    (second : Grown between later) : Grown inliner later where
  document_eq := second.document_eq.trans first.document_eq
  fragments_eq := second.fragments_eq.trans first.fragments_eq
  grows := first.grows.trans (first.fragments_eq ▸ second.grows)

theorem grown_run_of_yields (built : inliner.cache.Built inliner.fragments)
    (yields : Yields inliner.fragments path expansion substitution) :
    Grown inliner (inliner.run expansion).2 := by
  have outcome := yields inliner.cache built
  rw [run]
  cases ran : expansion.run inliner.cache with
  | error error after =>
      rw [ran] at outcome
      exact ⟨rfl, rfl, outcome.1.unopened⟩
  | ok expanded after =>
      rw [ran] at outcome
      exact ⟨rfl, rfl, outcome.1.unopened⟩

theorem exists_of_run_eq_ok (built : inliner.cache.Built inliner.fragments)
    (yields : Yields inliner.fragments path expansion substitution)
    (succeeds : (inliner.run expansion).1 = .ok expanded) :
    ∃ substituted, substitution [] = .ok substituted ∧ expanded = deepMerge substituted := by
  have outcome := yields inliner.cache built
  rw [run] at succeeds
  cases ran : expansion.run inliner.cache with
  | error error after => simp [ran] at succeeds
  | ok value after =>
      rw [ran] at outcome
      simp only [ran, Except.ok.injEq] at succeeds
      subst value
      exact outcome.2

theorem run_eq_ok_of_yields {substituted : List Selection}
    (built : inliner.cache.Built inliner.fragments)
    (yields : Yields inliner.fragments [] expansion substitution)
    (substitutes : substitution [] = .ok substituted) :
    (inliner.run expansion).1 = .ok (deepMerge substituted) := by
  have outcome := yields inliner.cache built
  rw [run]
  cases ran : expansion.run inliner.cache with
  | error error after =>
      rw [ran] at outcome
      have fails := outcome.2 (List.disjoint_nil_left _)
      simp [substitutes] at fails
  | ok value after =>
      rw [ran] at outcome
      rcases outcome with ⟨_, other, otherSubstitutes, rfl⟩
      rw [substitutes, Except.ok.injEq] at otherSubstitutes
      subst other
      rfl

theorem grown_inline (built : inliner.cache.Built inliner.fragments) :
    Grown inliner inliner.inline.2 := by
  have outcome := run_expandOperations built inliner.document.operations
  rw [inline, run, EStateM.run_bind]
  cases ran : (expandOperations inliner.fragments inliner.document.operations).run
      inliner.cache with
  | error error after =>
      rw [ran] at outcome
      exact ⟨rfl, rfl, outcome.1⟩
  | ok operations after =>
      rw [ran] at outcome
      exact ⟨rfl, rfl, outcome.1⟩

/-- A call adds to the cache and changes nothing else, also if its answer is an error. -/
theorem grown_call (built : inliner.cache.Built inliner.fragments) (call : Call) :
    Grown inliner (inliner.call call).2 := by
  cases call with
  | inline => exact grown_inline built
  | expand path name => exact grown_run_of_yields built (yields_expandFragment _ path name)
  | expandSet path selections =>
      exact grown_run_of_yields built (yields_expandSelections _ path selections)

theorem grown_after (built : inliner.cache.Built inliner.fragments) (calls : List Call) :
    Grown inliner (inliner.after calls) := by
  induction calls generalizing inliner with
  | nil => exact .refl built
  | cons call rest ih =>
      have first := grown_call built call
      exact first.trans (ih (first.fragments_eq ▸ first.grows.built))

theorem Grown.run_eq_ok {later : Inliner} (grown : Grown inliner later)
    (built : inliner.cache.Built inliner.fragments)
    (yields : Yields inliner.fragments path expansion substitution)
    (yieldsUnopened : Yields inliner.fragments [] unopened substitution)
    (succeeds : (later.run expansion).1 = .ok expanded) :
    (inliner.run unopened).1 = .ok expanded := by
  have laterBuilt : later.cache.Built later.fragments := grown.fragments_eq ▸ grown.grows.built
  rcases exists_of_run_eq_ok laterBuilt (grown.fragments_eq ▸ yields) succeeds with
    ⟨substituted, substitutes, rfl⟩
  exact run_eq_ok_of_yields built yieldsUnopened substitutes

theorem Grown.inline_fst_eq {later : Inliner} (grown : Grown inliner later)
    (built : inliner.cache.Built inliner.fragments) : later.inline.1 = inliner.inline.1 := by
  have laterBuilt : later.cache.Built later.fragments := grown.fragments_eq ▸ grown.grows.built
  rw [inline_fst laterBuilt, inline_fst built, grown.document_eq, grown.fragments_eq]

theorem Grown.answer_eq_ok {later : Inliner} (grown : Grown inliner later)
    (built : inliner.cache.Built inliner.fragments)
    (yields : Yields inliner.fragments path expansion substitution)
    (yieldsUnopened : Yields inliner.fragments [] unopened substitution) {answer : Answer}
    (succeeds : (later.run expansion).1.map .selections = .ok answer) :
    (inliner.run unopened).1.map .selections = .ok answer := by
  cases ran : (later.run expansion).1 with
  | error error => simp [ran, Except.map] at succeeds
  | ok expanded =>
      rw [ran] at succeeds
      rw [grown.run_eq_ok built yields yieldsUnopened ran]
      exact succeeds

/-- An answer does not depend on earlier calls, nor on the path. -/
theorem Grown.call_eq_ok {later : Inliner} (grown : Grown inliner later)
    (built : inliner.cache.Built inliner.fragments) {call : Call} {answer : Answer}
    (succeeds : (later.call call).1 = .ok answer) :
    (inliner.call call.unopened).1 = .ok answer := by
  cases call with
  | inline =>
      simp only [Call.unopened, Inliner.call, Prod.map_fst] at succeeds ⊢
      rw [← grown.inline_fst_eq built]
      exact succeeds
  | expand path name =>
      simp only [Call.unopened, Inliner.call, Prod.map_fst, expand] at succeeds ⊢
      rw [grown.fragments_eq] at succeeds
      exact grown.answer_eq_ok built (yields_expandFragment _ path name)
        (yields_expandFragment _ [] name) succeeds
  | expandSet path selections =>
      simp only [Call.unopened, Inliner.call, Prod.map_fst, expandSet] at succeeds ⊢
      rw [grown.fragments_eq] at succeeds
      exact grown.answer_eq_ok built (yields_expandSelections _ path selections)
        (yields_expandSelections _ [] selections) succeeds

/-- What is known of a fresh inliner. -/
theorem start_eq_ok_iff {strictness : Strictness} {document : Document} :
    start strictness document = .ok fresh ↔
      ∃ map, FragmentMap.ofDocument strictness document = .ok map ∧
        fresh = ⟨document, map, Cache.empty⟩ := by
  rw [start]
  cases FragmentMap.ofDocument strictness document <;>
    simp [bind, Except.bind, pure, Except.pure, eq_comm]

/--
After any calls, also failed ones, the cache of an inliner is faithful. Whatever is called next,
the cache is only added to, an answer that is not an error is the one that a fresh inliner gives
when no fragment is open, and the operations or their error are those of a fresh inliner.
-/
theorem faithful_after_of_start {strictness : Strictness} {document : Document}
    (started : start strictness document = .ok fresh) (calls : List Call) :
    (fresh.after calls).cache.Faithful document fresh ∧
      (∀ call, (fresh.after calls).cache.entries <+:
        ((fresh.after calls).call call).2.cache.entries) ∧
      (∀ call answer, ((fresh.after calls).call call).1 = .ok answer →
        (fresh.call call.unopened).1 = .ok answer) ∧
      (fresh.after calls).inline.1 = fresh.inline.1 := by
  rcases start_eq_ok_iff.mp started with ⟨map, mapped, rfl⟩
  have built : Cache.empty.Built map := .empty
  have grown : Grown ⟨document, map, Cache.empty⟩ _ := grown_after built calls
  have laterBuilt := grown.fragments_eq ▸ grown.grows.built
  refine ⟨?_, ?_, ?_, grown.inline_fst_eq built⟩
  · apply grown.grows.built.faithful (FragmentMap.find?_of_ofDocument mapped)
    intro name substituted substitutes
    exact run_eq_ok_of_yields built (yields_expandFragment map [] name) substitutes
  · intro call
    exact (grown_call laterBuilt call).grows.kept
  · intro call answer succeeds
    exact grown.call_eq_ok built succeeds

/-- A query for a profile, whose fragment spreads another one. -/
def profileQuery : Document where
  definitions := [
    .operation {
      description := none
      kind := .query
      name := none
      variableDefinitions := []
      directives := []
      selections := [.spread ⟨"Profile", rfl⟩ []]
    },
    .fragment {
      description := none
      name := ⟨"Profile", rfl⟩
      typeCondition := ⟨"Viewer", rfl⟩
      directives := []
      selections := [.spread ⟨"Contact", rfl⟩ [], .node (.field none ⟨"nickname", rfl⟩ [] []) none]
    },
    .fragment {
      description := none
      name := ⟨"Contact", rfl⟩
      typeCondition := ⟨"Viewer", rfl⟩
      directives := []
      selections := [.node (.field none ⟨"phone", rfl⟩ [] []) none]
    }]

/-- Two calls that fail: one half-way, at a missing fragment, and one at an open fragment. -/
def failingCalls : List Call :=
  [.expandSet [] [.spread ⟨"Profile", rfl⟩ [], .spread ⟨"Street", rfl⟩ []],
    .expand ["Profile"] "Profile"]

/-- The failed calls leave both fragments in the cache, and a later call finds them there. -/
theorem faithful_after_failingCalls :
    ∃ fresh answer, start .lenient profileQuery = .ok fresh ∧
      (∀ call ∈ failingCalls, (fresh.call call).1.isOk = false) ∧
      (fresh.after failingCalls).cache.names = ["Contact", "Profile"] ∧
      (fresh.after failingCalls).cache.Faithful profileQuery fresh ∧
      ((fresh.after failingCalls).call (.expand ["Account"] "Profile")).1 = .ok answer ∧
      (fresh.call (.expand [] "Profile")).1 = .ok answer := by
  let fresh : Inliner :=
    ⟨profileQuery, FragmentMap.ofFragments profileQuery.fragments, Cache.empty⟩
  have started : start .lenient profileQuery = .ok fresh := rfl
  have fail : ∀ call ∈ failingCalls, (fresh.call call).1.isOk = false := by
    decide +kernel
  have remembered : (fresh.after failingCalls).cache.names = ["Contact", "Profile"] := by
    decide +kernel
  rcases faithful_after_of_start started failingCalls with ⟨faithful, _, answers, _⟩
  have succeeds :
      ((fresh.after failingCalls).call (.expand ["Account"] "Profile")).1.isOk = true := by
    decide +kernel
  cases outcome : ((fresh.after failingCalls).call (.expand ["Account"] "Profile")).1 with
  | error error => simp [outcome, Except.isOk, Except.toBool] at succeeds
  | ok answer =>
      exact ⟨fresh, answer, started, fail, remembered, faithful, outcome, answers _ _ outcome⟩

end Inliner

end QueryPrep.Inline
