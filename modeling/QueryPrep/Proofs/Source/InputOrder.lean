import QueryPrep.Proofs.Source.Composition
import QueryPrep.Proofs.Source.Grouping

/-!
# The order of the input does not matter

Files are made from definitions by sorting them, so the order in which definitions are given does
not show in the files. Neither does the order of texts that are put on lines of their own, since a
line break is part of no keyword: such texts are split as if each were alone.
-/

namespace QueryPrep.Source

open QueryPrep.Text Scanner

section Lines

variable {text : String} {texts permuted : List String}

/-- The definitions that splitting finds in a text. -/
def definitionsOf (text : String) : List RawDefinition :=
  (ofText text).outcome.1

theorem opening?_of_isBlank {letter : Char} {rest : List Char} (blank : isBlank letter = true) :
    DefinitionKind.opening? (letter :: rest) = none := by
  rw [DefinitionKind.opening?_eq_none_iff]
  intro kind opens
  have visible := DefinitionKind.isBlank_of_opens opens
  simp [blank] at visible

theorem interleaves_definitionsOf
    (ends : ∃ definitions, (ofText text).EndsScanning definitions) :
    Interleaves text.toList (definitionsOf text) := by
  rcases ends with ⟨definitions, ends⟩
  rw [definitionsOf, ends.outcome_eq]
  exact interleaves_of_endsScanning ends

/-- Lines are split one by one if none of them leaves anything begun. -/
theorem interleaves_intercalate
    (ends : ∀ text ∈ texts, ∃ definitions, (ofText text).EndsScanning definitions) :
    Interleaves (String.intercalate "\n" texts).toList (texts.flatMap definitionsOf) := by
  induction texts with
  | nil => exact .gap keywordFree_nil
  | cons text others ih =>
      rw [List.forall_mem_cons] at ends
      have first := interleaves_definitionsOf ends.1
      have rest := ih ends.2
      rw [List.flatMap_cons]
      by_cases last : others = []
      · subst last
        rw [String.intercalate_singleton, List.flatMap_nil, List.append_nil]
        exact first
      · have lineBreak : isBlank '\n' = true := by decide
        rw [String.intercalate_cons_of_ne_nil last, String.toList_append, String.toList_append,
          List.append_assoc]
        exact first.append (rest.cons (opening?_of_isBlank lineBreak))
          (not_straddled_of_isBlank lineBreak)

theorem splitDefinitions_intercalate
    (ends : ∀ text ∈ texts, ∃ definitions, (ofText text).EndsScanning definitions) :
    splitDefinitions (String.intercalate "\n" texts) = .ok (texts.flatMap definitionsOf) :=
  splitDefinitions_of_interleaves (interleaves_intercalate ends)

end Lines

/--
Files do not depend on the order of the definitions that they are made from, nor on the order of the
lines in which the definitions are found.
-/
theorem files_ignore_order (extension : String) :
    (∀ definitions permuted : List RawDefinition, definitions.Perm permuted →
      groupDefinitions extension definitions = groupDefinitions extension permuted) ∧
    ∀ texts permuted : List String,
      (∀ text ∈ texts, ∃ definitions, (ofText text).EndsScanning definitions) →
        permuted.Perm texts →
          (splitDefinitions (String.intercalate "\n" permuted)).map (groupDefinitions extension) =
            .ok (groupDefinitions extension (texts.flatMap definitionsOf)) := by
  constructor
  · intro definitions permuted perm
    exact groupDefinitions_eq_of_perm perm extension
  · intro texts permuted ends perm
    have permutedEnds : ∀ text ∈ permuted, ∃ definitions,
        (ofText text).EndsScanning definitions :=
      fun text member => ends text (perm.mem_iff.mp member)
    rw [splitDefinitions_intercalate permutedEnds, Except.map,
      groupDefinitions_eq_of_perm (perm.flatMap_right definitionsOf)]

/-- Three definitions of one file, with stray braces and the beginning of a keyword around them. -/
def pageTexts : List String :=
  ["\x7b fragment Page_user on User \x7b id \x7d", "query PageQuery \x7b id \x7d \x7d",
    "query Page \x7b id \x7d quer"]

theorem files_ignore_order_pageTexts :
    (∀ text ∈ pageTexts, ∃ definitions, (ofText text).EndsScanning definitions) ∧
      (pageTexts.flatMap definitionsOf).length = 3 ∧
      groupDefinitions ".js" (pageTexts.flatMap definitionsOf) =
        groupDefinitions ".js" (pageTexts.flatMap definitionsOf).reverse ∧
      (splitDefinitions (String.intercalate "\n" pageTexts.reverse)).map
          (groupDefinitions ".js") =
        .ok (groupDefinitions ".js" (pageTexts.flatMap definitionsOf)) := by
  have eachEnds : ∀ text ∈ pageTexts, (ofText text).EndsScanning (definitionsOf text) := by
    decide +kernel
  have ends : ∀ text ∈ pageTexts, ∃ definitions, (ofText text).EndsScanning definitions :=
    fun text member => ⟨_, eachEnds text member⟩
  rcases files_ignore_order ".js" with ⟨ofDefinitions, ofTexts⟩
  refine ⟨ends, by decide +kernel, ?_, ?_⟩
  · exact ofDefinitions _ _ (List.reverse_perm _).symm
  · exact ofTexts pageTexts pageTexts.reverse ends (List.reverse_perm _)

end QueryPrep.Source
