import QueryPrep.Proofs.Inline.FragmentGraph
import QueryPrep.Proofs.Inline.Refinement

/-!
# When inlining succeeds

Inlining fails only for a reason that the fragment graph shows: an operation leads to a name that
is not defined, or to a fragment that leads to itself. Whatever no operation leads to is without
effect.

A substitution that fails leaves a path behind, from an operation to the spread that caused the
error; this is an induction on the fragments that are not open yet. A substitution that succeeds
may be followed along any chain of spreads, and the chain cannot close, because it would have to
come back to a fragment that is still open.
-/

namespace QueryPrep.Inline

open QueryPrep.Graphql Selection

/-- What an error of lenient inlining says about the document. -/
def Explains (document : Document) : InlineError → Prop
  | .unresolved name => document.Reaches name ∧ document.lastFragment? name = none
  | .cyclic path => document.IsCycle path
  | .duplicate _ => False

section Failure

variable {document : Document} {map : FragmentMap} {error : InlineError}

theorem explains_of_substituteFragment_eq_error {path : List String} {name : String}
    (agrees : ∀ name, map.find? name = document.lastFragment? name)
    (openPath : document.OpenPath path name)
    (fails : substituteFragment map path name = .error error) : Explains document error := by
  by_cases passed : name ∈ path
  · rw [substituteFragment_of_mem passed, Except.error.injEq] at fails
    subst error
    exact ⟨path, name, rfl, openPath, passed⟩
  cases found : map.find? name with
  | none =>
      rw [substituteFragment_of_find?_eq_none passed found, Except.error.injEq] at fails
      subst error
      rw [agrees] at found
      exact ⟨openPath.reaches, found⟩
  | some fragment =>
      rw [substituteFragment_of_find?_eq_some passed found] at fails
      rcases exists_error_of_substituteEach_eq_error fails with ⟨inner, spread, cause⟩
      have longer := openPath.append passed ⟨fragment, agrees name ▸ found, spread⟩
      exact explains_of_substituteFragment_eq_error agrees longer cause
termination_by map.unopened path
decreasing_by exact FragmentMap.unopened_append_lt found passed

theorem explains_of_inlineDocument_eq_error
    (fails : inlineDocument .lenient document = .error error) : Explains document error := by
  have mapped := FragmentMap.ofDocument_lenient document
  rw [inlineDocument_eq_of_ofDocument mapped] at fails
  cases replaced : document.operations.mapM
      (substituteOperation (FragmentMap.ofFragments document.fragments)) with
  | ok substituted => simp [replaced, Except.map] at fails
  | error cause =>
      simp only [replaced, Except.map, Except.error.injEq] at fails
      subst cause
      rcases exists_of_mapM_substituteOperation_eq_error replaced with
        ⟨operation, member, operationFails⟩
      rcases exists_error_of_substituteEach_eq_error
          (substituteOperation_eq_error_iff.mp operationFails) with ⟨name, spread, cause⟩
      have opens : document.Opens name := ⟨operation, member, spread⟩
      exact explains_of_substituteFragment_eq_error (FragmentMap.find?_of_ofDocument mapped)
        (.nil opens) cause

end Failure

section Success

variable {document : Document} {map : FragmentMap} {path : List String} {name inner : String}

/-- The fragment can be substituted when the fragments of `path` are open. -/
def Substitutes (map : FragmentMap) (path : List String) (name : String) : Prop :=
  ∃ substituted, substituteFragment map path name = .ok substituted

theorem Substitutes.not_mem (substitutes : Substitutes map path name) : name ∉ path := by
  rcases substitutes with ⟨substituted, succeeds⟩
  exact (exists_of_substituteFragment_eq_ok succeeds).1

theorem Substitutes.exists_find? (substitutes : Substitutes map path name) :
    ∃ fragment, map.find? name = some fragment := by
  rcases substitutes with ⟨substituted, succeeds⟩
  rcases exists_of_substituteFragment_eq_ok succeeds with ⟨_, fragment, found, _⟩
  exact ⟨fragment, found⟩

theorem Substitutes.spread (agrees : ∀ name, map.find? name = document.lastFragment? name)
    (substitutes : Substitutes map path name) (spreads : document.Spreads name inner) :
    Substitutes map (path ++ [name]) inner := by
  rcases spreads with ⟨fragment, found, spread⟩
  rcases substitutes with ⟨substituted, succeeds⟩
  rcases exists_of_substituteFragment_eq_ok succeeds with ⟨_, other, otherFound, bodySucceeds⟩
  rw [agrees, found, Option.some.injEq] at otherFound
  subst other
  exact exists_ok_of_substituteEach_eq_ok bodySucceeds inner spread

/-- Along a chain of spreads, all that has been passed stays open. -/
theorem Substitutes.transGen (agrees : ∀ name, map.find? name = document.lastFragment? name)
    (substitutes : Substitutes map path name)
    (chain : Relation.TransGen document.Spreads name inner) :
    ∃ longer, name ∈ longer ∧ Substitutes map longer inner := by
  induction chain with
  | single spreads => exact ⟨path ++ [name], by simp, substitutes.spread agrees spreads⟩
  | tail _ spreads ih =>
      rcases ih with ⟨longer, passed, substitutesBetween⟩
      exact ⟨_, List.mem_append_left _ passed, substitutesBetween.spread agrees spreads⟩

theorem Substitutes.not_transGen_self
    (agrees : ∀ name, map.find? name = document.lastFragment? name)
    (substitutes : Substitutes map path name) :
    ¬ Relation.TransGen document.Spreads name name := by
  intro chain
  rcases substitutes.transGen agrees chain with ⟨longer, passed, substitutesAgain⟩
  exact substitutesAgain.not_mem passed

theorem exists_substitutes_of_reaches
    (agrees : ∀ name, map.find? name = document.lastFragment? name)
    (succeeds : ∀ operation ∈ document.operations, ∃ substituted,
      substituteEach (substituteFragment map []) operation.selections = .ok substituted)
    (reached : document.Reaches name) : ∃ path, Substitutes map path name := by
  induction reached with
  | opened opens =>
      rcases opens with ⟨operation, member, spread⟩
      rcases succeeds operation member with ⟨substituted, operationSucceeds⟩
      exact ⟨[], exists_ok_of_substituteEach_eq_ok operationSucceeds _ spread⟩
  | through _ spreads ih =>
      rcases ih with ⟨path, substitutes⟩
      exact ⟨_, substitutes.spread agrees spreads⟩

theorem exists_substituted_of_inlineDocument_eq_ok {strictness : Strictness} {inlined : Document}
    (mapped : FragmentMap.ofDocument strictness document = .ok map)
    (succeeds : inlineDocument strictness document = .ok inlined) :
    ∀ operation ∈ document.operations, ∃ substituted,
      substituteEach (substituteFragment map []) operation.selections = .ok substituted := by
  rcases exists_of_inlineDocument_eq_ok succeeds with ⟨other, otherMapped, _, agree⟩
  rw [mapped, Except.ok.injEq] at otherMapped
  subst other
  intro operation member
  have same := (List.forall₂_iff_get.mp agree).1
  rcases List.mem_iff_getElem.mp member with ⟨index, inBounds, rfl⟩
  rcases (List.forall₂_iff_get.mp agree).2 index inBounds (same ▸ inBounds) with
    ⟨substituted, operationSucceeds, _⟩
  exact ⟨substituted, operationSucceeds⟩

end Success

/--
Lenient inlining succeeds exactly if every name that an operation leads to is defined and does not
lead to itself. An error names a name that an operation leads to and that is not defined, or gives
a path from an operation into a cycle.
-/
theorem inlineDocument_lenient_eq_ok_iff (document : Document) :
    ((∃ inlined, inlineDocument .lenient document = .ok inlined) ↔
      ∀ name, document.Reaches name →
        (∃ fragment, document.lastFragment? name = some fragment) ∧
          ¬ Relation.TransGen document.Spreads name name) ∧
    ∀ error, inlineDocument .lenient document = .error error → Explains document error := by
  refine ⟨⟨?_, ?_⟩, fun error => explains_of_inlineDocument_eq_error⟩
  · rintro ⟨inlined, succeeds⟩ name reached
    have mapped := FragmentMap.ofDocument_lenient document
    have agrees := FragmentMap.find?_of_ofDocument mapped
    have operationsSucceed := exists_substituted_of_inlineDocument_eq_ok mapped succeeds
    rcases exists_substitutes_of_reaches agrees operationsSucceed reached with
      ⟨path, substitutes⟩
    refine ⟨?_, substitutes.not_transGen_self agrees⟩
    rcases substitutes.exists_find? with ⟨fragment, found⟩
    exact ⟨fragment, agrees name ▸ found⟩
  · intro sound
    cases outcome : inlineDocument .lenient document with
    | ok inlined => exact ⟨inlined, rfl⟩
    | error error =>
        have explained := explains_of_inlineDocument_eq_error outcome
        cases error with
        | unresolved name =>
            rcases explained with ⟨reached, missing⟩
            rcases (sound name reached).1 with ⟨fragment, found⟩
            simp [missing] at found
        | cyclic path =>
            rcases explained.exists_transGen_self with ⟨name, reached, chain⟩
            exact absurd chain (sound name reached).2
        | duplicate name => exact explained.elim

end QueryPrep.Inline
