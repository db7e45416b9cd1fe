import QueryPrep.Proofs.Inline.Descent

/-!
# Which field a merged request asks for

The key of a field holds the name that the response uses for it and its arguments. So a request is
never merged into one with another response name or other arguments. The name of the field itself
is no part of the key: of several fields that go by the same response name, the first one counts.
-/

namespace QueryPrep.Graphql

namespace Head

/-- The name that the response uses for a field. -/
def responseName? : Head → Option Name
  | .field label name _ _ => some (label.getD name)
  | .inlineFragment _ _ => none

def fieldName? : Head → Option Name
  | .field _ name _ _ => some name
  | .inlineFragment _ _ => none

def argumentKey? : Head → Option String
  | .field _ _ arguments _ => some (argumentKey arguments)
  | .inlineFragment _ _ => none

/-- A field shares its key with the fields of the same response name and the same argument key. -/
theorem key_eq_iff {name : Name} {first head : Head} (isField : head.fieldName? = some name) :
    first.key = head.key ↔
      first.responseName? = head.responseName? ∧ first.argumentKey? = head.argumentKey? := by
  rw [← Selection.key_node first none, ← Selection.key_node head none,
    Selection.key_eq_iff_sameRequest]
  cases head with
  | inlineFragment typeCondition directives => simp [fieldName?] at isField
  | field label name arguments directives =>
      cases first <;> simp [Selection.SameRequest, responseName?, argumentKey?]

end Head

end QueryPrep.Graphql

namespace QueryPrep.Inline

open QueryPrep.Graphql Selection

/--
Every field that can be read in an operation is answered after inlining, at the same key path, by
the first field with its key. That one has the same response name and the same argument key. It has
the same name in the schema as well, if this is so for all fields with that key path.
-/
theorem exists_field_inlineDocument {strictness : Strictness} {document inlined : Document}
    (succeeds : inlineDocument strictness document = .ok inlined) :
    List.Forall₂
      (fun before after => ∀ path head name,
        OccursAt document before.selections path head → head.fieldName? = some name →
          ∃ first, OccursAt inlined after.selections path first ∧
            IsFirstAt document before.selections path first ∧ first.key = head.key ∧
            first.responseName? = head.responseName? ∧
            first.argumentKey? = head.argumentKey? ∧
            ((∀ other, OccursAt document before.selections path other → other.key = head.key →
              other.fieldName? = some name) → first.fieldName? = some name))
      document.operations inlined.operations := by
  apply (exists_expands_of_inlineDocument_eq_ok succeeds).imp
  rintro before after ⟨expanded, expands, without, merged⟩ path head name occurs isField
  rcases occurs.exists_isFirstAt expands with ⟨first, isFirst, sameKey⟩
  have same := (Head.key_eq_iff isField).mp sameKey
  refine ⟨first, ?_, isFirst, sameKey, same.1, same.2, ?_⟩
  · rcases isFirst with ⟨firsts, onPath, _, otherExpands, hasFirsts⟩
    rw [otherExpands.unique expands] at hasFirsts
    rw [merged]
    exact ⟨firsts, [], onPath, (descends_deepMerge_iff without).mpr ⟨hasFirsts, rfl⟩⟩
  · intro agree
    exact agree first isFirst.occursAt sameKey

section Sample

private def petHead : Head := .field none ⟨"pet", rfl⟩ [] []

private def soundHead (name : Name) : Head := .field (some ⟨"sound", rfl⟩) name [] []

private def meowHead : Head := soundHead ⟨"meow", rfl⟩

private def barkHead : Head := soundHead ⟨"bark", rfl⟩

private def soundFragment (name : Name) (head : Head) : FragmentDefinition where
  description := none
  name := name
  typeCondition := name
  directives := []
  selections := [.node head none]

private def petSelections : List Selection :=
  [.node petHead (some [.spread ⟨"Cat", rfl⟩ [], .spread ⟨"Dog", rfl⟩ []])]

/-- A query for the sound that a pet makes, whose field depends on what the pet is. -/
def soundQuery : Document where
  definitions := [
    .operation {
      description := none
      kind := .query
      name := none
      variableDefinitions := []
      directives := []
      selections := petSelections
    },
    .fragment (soundFragment ⟨"Cat", rfl⟩ meowHead),
    .fragment (soundFragment ⟨"Dog", rfl⟩ barkHead)]

theorem exists_inlineDocument_soundQuery_eq_ok :
    ∃ inlined, inlineDocument .strict soundQuery = .ok inlined := by
  apply exists_eq_ok_of_isOk
  decide +kernel

theorem occursAt_petSelections : OccursAt soundQuery petSelections [petHead.key] barkHead := by
  refine ⟨[petHead], [[]], rfl, .node List.mem_cons_self ?_⟩
  have second : .spread ⟨"Dog", rfl⟩ [] ∈ [spread ⟨"Cat", rfl⟩ [], spread ⟨"Dog", rfl⟩ []] := by
    simp
  exact .spread second rfl (.node List.mem_cons_self .nil)

theorem exists_field_soundQuery :
    ∃ inlined, inlineDocument .strict soundQuery = .ok inlined ∧
      ∃ operation ∈ inlined.operations, ∃ first,
        OccursAt inlined operation.selections [petHead.key] first ∧
          first.responseName? = some ⟨"sound", rfl⟩ ∧ first.argumentKey? = some "" := by
  rcases exists_inlineDocument_soundQuery_eq_ok with ⟨inlined, succeeds⟩
  refine ⟨inlined, succeeds, ?_⟩
  have answered := exists_field_inlineDocument succeeds
  rcases List.forall₂_cons_left_iff.mp answered with ⟨after, rest, answeredFirst, _, afters⟩
  rcases answeredFirst _ _ _ occursAt_petSelections rfl with
    ⟨first, occurs, _, _, responseName, argumentKey, _⟩
  refine ⟨after, ?_, first, occurs, responseName, argumentKey⟩
  simp [afters]

private def expandedPetSelections : List Selection :=
  [.node petHead (some [.node meowHead none, .node barkHead none])]

theorem expands_petSelections : Expands soundQuery petSelections expandedPetSelections := by
  have meow : Expands soundQuery (soundFragment ⟨"Cat", rfl⟩ meowHead).selections
      [.node meowHead none] := .leaf .nil
  have bark : Expands soundQuery (soundFragment ⟨"Dog", rfl⟩ barkHead).selections
      [.node barkHead none] := .leaf .nil
  have below : Expands soundQuery [.spread ⟨"Cat", rfl⟩ [], .spread ⟨"Dog", rfl⟩ []] _ :=
    .spread rfl meow (.spread rfl bark .nil)
  exact .node below .nil

theorem hasFirstHeads_expandedPetSelections :
    HasFirstHeads expandedPetSelections [petHead, meowHead] := by
  have sameKey : barkHead.key = meowHead.key := rfl
  simp [expandedPetSelections, HasFirstHeads, setsWithKey, withKey, selections?, sameKey]

/-- Of the two sounds, only the first is asked for after inlining. -/
theorem not_exists_field_soundQuery :
    ∃ inlined, inlineDocument .strict soundQuery = .ok inlined ∧
      ¬ List.Forall₂
        (fun before after => ∀ path head name,
          OccursAt soundQuery before.selections path head → head.fieldName? = some name →
            ∃ other, OccursAt inlined after.selections path other ∧
              other.responseName? = head.responseName? ∧
              other.fieldName? = head.fieldName? ∧
              other.argumentKey? = head.argumentKey?)
        soundQuery.operations inlined.operations := by
  rcases exists_inlineDocument_soundQuery_eq_ok with ⟨inlined, succeeds⟩
  refine ⟨inlined, succeeds, ?_⟩
  intro kept
  have expansions := exists_expands_of_inlineDocument_eq_ok succeeds
  rcases List.forall₂_cons_left_iff.mp expansions with
    ⟨after, rest, ⟨expanded, expands, without, merged⟩, _, afters⟩
  rw [afters] at kept
  rcases (List.forall₂_cons.mp kept).1 _ _ _ occursAt_petSelections rfl with
    ⟨other, ⟨heads, passed, onPath, descends⟩, sameResponse, sameField, sameArguments⟩
  have sameKey : other.key = barkHead.key :=
    (Head.key_eq_iff rfl).mpr ⟨sameResponse, sameArguments⟩
  have sameKeys : (heads ++ [other]).map Head.key = [petHead, meowHead].map Head.key := by
    rw [List.map_append, onPath, List.map_singleton, sameKey]
    rfl
  rw [merged, descends_deepMerge_iff without, expands.unique expands_petSelections] at descends
  have only := descends.1.unique hasFirstHeads_expandedPetSelections sameKeys
  have isMeow : other = meowHead := by
    have last := congrArg List.getLast? only
    simpa using last
  rw [isMeow] at sameField
  exact absurd sameField (by decide)

end Sample

end QueryPrep.Inline
