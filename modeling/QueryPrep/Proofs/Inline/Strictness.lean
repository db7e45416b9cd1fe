import QueryPrep.Proofs.Inline.Relevance

/-!
# Repeated fragment names

Strict inlining looks for a repeated name before anything else. Where it finds none, it is lenient
inlining. Lenient inlining goes on with the last definition of every name, so it comes to the same
as inlining the document without all the others; only the place of a name in the fragment map
still shows where it was defined first.
-/

namespace QueryPrep.Graphql.Document

/-- The names of the fragments in source order, repeated names included. -/
def fragmentNames (document : Document) : List Name :=
  document.fragments.map FragmentDefinition.name

/-- Definitions without the fragments whose names are defined again later. -/
def unshadowed : List Definition → List Definition
  | [] => []
  | .operation operation :: later => .operation operation :: unshadowed later
  | .fragment fragment :: later =>
      if fragment.name ∈ (Document.mk later).fragmentNames then unshadowed later
      else .fragment fragment :: unshadowed later
  | .typeSystem :: later => .typeSystem :: unshadowed later

/-- The document with only the last definition of every fragment name. -/
def withoutShadowed (document : Document) : Document :=
  ⟨unshadowed document.definitions⟩

section Unshadowed

variable {definitions : List Definition} {name : Name} {document : Document}

theorem fragments_cons_fragment (fragment : FragmentDefinition) (later : List Definition) :
    (Document.mk (.fragment fragment :: later)).fragments =
      fragment :: (Document.mk later).fragments := rfl

theorem fragmentNames_cons_fragment (fragment : FragmentDefinition) (later : List Definition) :
    (Document.mk (.fragment fragment :: later)).fragmentNames =
      fragment.name :: (Document.mk later).fragmentNames := rfl

@[simp]
theorem operations_withoutShadowed : document.withoutShadowed.operations = document.operations := by
  rcases document with ⟨definitions⟩
  simp only [withoutShadowed, Document.operations]
  fun_induction unshadowed definitions <;>
    simp only [List.filterMap_nil, List.filterMap_cons, Definition.operation?, *]

theorem mem_fragmentNames_unshadowed :
    name ∈ (Document.mk (unshadowed definitions)).fragmentNames ↔
      name ∈ (Document.mk definitions).fragmentNames := by
  fun_induction unshadowed definitions with
  | case1 => rfl
  | case2 operation later ih => exact ih
  | case3 fragment later again ih =>
      rw [ih, fragmentNames_cons_fragment, List.mem_cons]
      constructor
      · exact Or.inr
      · rintro (rfl | member)
        · exact again
        · exact member
  | case4 fragment later last ih =>
      rw [fragmentNames_cons_fragment, fragmentNames_cons_fragment, List.mem_cons, List.mem_cons,
        ih]
  | case5 later ih => exact ih

theorem nodup_fragmentNames_withoutShadowed (document : Document) :
    document.withoutShadowed.fragmentNames.Nodup := by
  rcases document with ⟨definitions⟩
  rw [withoutShadowed]
  fun_induction unshadowed definitions with
  | case1 => exact List.nodup_nil
  | case2 operation later ih => exact ih
  | case3 fragment later again ih => exact ih
  | case4 fragment later last ih =>
      rw [fragmentNames_cons_fragment, List.nodup_cons, mem_fragmentNames_unshadowed]
      exact ⟨last, ih⟩
  | case5 later ih => exact ih

/-- What is left out is never the last fragment with its name. -/
theorem lastFragment?_withoutShadowed (document : Document) (name : String) :
    document.withoutShadowed.lastFragment? name = document.lastFragment? name := by
  rcases document with ⟨definitions⟩
  simp only [withoutShadowed, lastFragment?]
  fun_induction unshadowed definitions with
  | case1 => rfl
  | case2 operation later ih => exact ih
  | case3 fragment later again ih =>
      rw [ih, fragments_cons_fragment, List.reverse_cons, List.find?_append]
      by_cases named : fragment.name.text = name
      · -- The name is defined again later, and what comes later is looked up first.
        have found : ((Document.mk later).fragments.reverse.find?
            (·.name.text == name)).isSome := by
          rcases List.mem_map.mp again with ⟨last, member, same⟩
          rw [List.find?_isSome]
          exact ⟨last, List.mem_reverse.mpr member, by simp [same, named]⟩
        rw [Option.or_of_isSome found]
      · simp [named]
  | case4 fragment later last ih =>
      rw [fragments_cons_fragment, fragments_cons_fragment, List.reverse_cons, List.reverse_cons,
        List.find?_append, List.find?_append, ih]
  | case5 later ih => exact ih

end Unshadowed

end QueryPrep.Graphql.Document

namespace QueryPrep.Inline

open QueryPrep.Graphql Selection

namespace FragmentMap

variable {document : Document} {seen others : List Name} {fragments : List FragmentDefinition}
variable {name : Name}

theorem redefinitions_eq_nil_iff :
    redefinitions seen fragments = [] ↔
      (fragments.map FragmentDefinition.name).Nodup ∧
        ∀ name ∈ seen, name ∉ fragments.map FragmentDefinition.name := by
  fun_induction redefinitions seen fragments with
  | case1 => simp
  | case2 seen fragment rest again ih =>
      simp only [reduceCtorEq, List.map_cons, List.mem_cons, false_iff, not_and, not_forall]
      intro _
      exact ⟨fragment.name, again, by simp⟩
  | case3 seen fragment rest fresh ih =>
      rw [ih, List.forall_mem_cons, List.map_cons, List.nodup_cons]
      constructor
      · rintro ⟨distinct, first, others⟩
        refine ⟨⟨first, distinct⟩, ?_⟩
        intro name known
        rw [List.mem_cons, not_or]
        exact ⟨fun same => fresh (same ▸ known), others name known⟩
      · rintro ⟨⟨first, distinct⟩, others⟩
        exact ⟨distinct, first, fun name known member =>
          others name known (List.mem_cons_of_mem _ member)⟩

/-- The first redefinition comes after definitions with distinct names, one of them its own. -/
theorem exists_of_redefinitions_eq_cons
    (redefined : redefinitions seen fragments = name :: others) :
    ∃ before repeated after, fragments = before ++ repeated :: after ∧ repeated.name = name ∧
      redefinitions seen before = [] ∧
      (name ∈ seen ∨ name ∈ before.map FragmentDefinition.name) := by
  fun_induction redefinitions seen fragments with
  | case1 => simp at redefined
  | case2 seen fragment rest again ih =>
      rw [List.cons.injEq] at redefined
      rcases redefined with ⟨rfl, _⟩
      exact ⟨[], fragment, rest, rfl, rfl, rfl, Or.inl again⟩
  | case3 seen fragment rest fresh ih =>
      rcases ih redefined with ⟨before, repeated, after, rfl, named, distinct, known⟩
      refine ⟨fragment :: before, repeated, after, rfl, named, ?_, ?_⟩
      · rw [redefinitions, if_neg fresh, distinct]
      · rw [List.mem_cons] at known
        rw [List.map_cons, List.mem_cons]
        exact or_left_comm.mp (or_assoc.mp known)

theorem ofDocument_strict_of_nodup (distinct : document.fragmentNames.Nodup) :
    ofDocument .strict document = ofDocument .lenient document := by
  have none : redefinitions [] document.fragments = [] :=
    redefinitions_eq_nil_iff.mpr ⟨distinct, by simp⟩
  simp [ofDocument, none]

theorem ofDocument_strict_of_not_nodup (shared : ¬ document.fragmentNames.Nodup) :
    ∃ before repeated after, document.fragments = before ++ repeated :: after ∧
      (before.map FragmentDefinition.name).Nodup ∧
      repeated.name ∈ before.map FragmentDefinition.name ∧
      ofDocument .strict document = .error (.duplicate repeated.name) := by
  cases redefined : redefinitions [] document.fragments with
  | nil => exact absurd (redefinitions_eq_nil_iff.mp redefined).1 shared
  | cons name others =>
      rcases exists_of_redefinitions_eq_cons redefined with
        ⟨before, repeated, after, split, rfl, distinct, known⟩
      refine ⟨before, repeated, after, split, (redefinitions_eq_nil_iff.mp distinct).1, ?_, ?_⟩
      · simpa using known
      · simp only [ofDocument, redefined]

theorem map_name_put (fragment : FragmentDefinition) (fragments : List FragmentDefinition) :
    (put fragment fragments).map FragmentDefinition.name =
      if fragment.name ∈ fragments.map FragmentDefinition.name then
        fragments.map FragmentDefinition.name
      else fragments.map FragmentDefinition.name ++ [fragment.name] := by
  induction fragments with
  | nil => simp [put]
  | cons first rest ih =>
      rw [put]
      by_cases same : first.name = fragment.name
      · simp [same]
      · simp only [if_neg same, List.map_cons, ih, List.mem_cons, Ne.symm same, false_or]
        split <;> rfl

/-- The map of a list of fragments has their names, in the order of the first definitions. -/
theorem names_ofFragments (fragments : List FragmentDefinition) :
    (ofFragments fragments).names = (fragments.map FragmentDefinition.name).eraseDups := by
  induction fragments using List.reverseRecOn with
  | nil => simp [ofFragments, empty, names]
  | append_singleton fragments last ih =>
      rw [ofFragments_append_singleton, names, insert, map_name_put, ← names, ih, List.map_append,
        List.map_singleton, List.eraseDups_append]
      generalize fragments.map FragmentDefinition.name = earlier
      by_cases known : last.name ∈ earlier <;>
        simp [known, List.cons_removeAll, List.eraseDups_cons]

end FragmentMap

variable {document : Document}

theorem inlineDocument_eq_of_ofDocument_eq {first second : Strictness}
    (same : FragmentMap.ofDocument first document = FragmentMap.ofDocument second document) :
    inlineDocument first document = inlineDocument second document := by
  simp only [inlineDocument, Inliner.start, same]

theorem inlineDocument_eq_lenient (distinct : document.fragmentNames.Nodup)
    (strictness : Strictness) :
    inlineDocument strictness document = inlineDocument .lenient document := by
  cases strictness with
  | strict =>
      exact inlineDocument_eq_of_ofDocument_eq (FragmentMap.ofDocument_strict_of_nodup distinct)
  | lenient => rfl

theorem inlineDocument_lenient_withoutShadowed (document : Document) :
    inlineDocument .lenient document = inlineDocument .lenient document.withoutShadowed := by
  have mapped := FragmentMap.ofDocument_lenient document
  have keptMapped := FragmentMap.ofDocument_lenient document.withoutShadowed
  have agree : FragmentMap.AgreeOn (fun _ => True) (FragmentMap.ofFragments document.fragments)
      (FragmentMap.ofFragments document.withoutShadowed.fragments) :=
    { same := by
        intro name _
        rw [FragmentMap.find?_of_ofDocument mapped, FragmentMap.find?_of_ofDocument keptMapped,
          Document.lastFragment?_withoutShadowed]
      closed := fun _ _ _ _ _ _ => trivial }
  exact inlineDocument_eq_of_agreeOn mapped keptMapped Document.operations_withoutShadowed.symm
    agree fun _ _ => trivial

/--
If two fragments share a name, strict inlining reports the first one whose name was defined before
it, whatever else is wrong with the document. If no two do, strict inlining is lenient inlining.
Lenient inlining is inlining, in either mode, of the document with only the last definition of every
fragment name. Its map holds the names in the order of their first definitions, each for its last
definition.
-/
theorem inlineDocument_strict_and_lenient (document : Document) :
    (¬ document.fragmentNames.Nodup →
      ∃ before repeated after, document.fragments = before ++ repeated :: after ∧
        (before.map FragmentDefinition.name).Nodup ∧
        repeated.name ∈ before.map FragmentDefinition.name ∧
        inlineDocument .strict document = .error (.duplicate repeated.name)) ∧
    (document.fragmentNames.Nodup →
      inlineDocument .strict document = inlineDocument .lenient document) ∧
    (∀ strictness,
      inlineDocument .lenient document = inlineDocument strictness document.withoutShadowed) ∧
    ∃ map, FragmentMap.ofDocument .lenient document = .ok map ∧
      map.names = document.fragmentNames.eraseDups ∧
      ∀ name, map.find? name = document.lastFragment? name := by
  refine ⟨?_, fun distinct => inlineDocument_eq_lenient distinct .strict, ?_, ?_⟩
  · intro shared
    rcases FragmentMap.ofDocument_strict_of_not_nodup shared with
      ⟨before, repeated, after, split, distinct, known, refused⟩
    refine ⟨before, repeated, after, split, distinct, known, ?_⟩
    simp only [inlineDocument, Inliner.start, refused]
    rfl
  · intro strictness
    rw [inlineDocument_lenient_withoutShadowed]
    exact (inlineDocument_eq_lenient
      (Document.nodup_fragmentNames_withoutShadowed document) strictness).symm
  · have mapped := FragmentMap.ofDocument_lenient document
    refine ⟨_, mapped, FragmentMap.names_ofFragments document.fragments, ?_⟩
    exact FragmentMap.find?_of_ofDocument mapped

section Sample

private def nodeOf (name : Name) : Selection := .node (.field none name [] []) none

private def spreadOf (name : Name) : Selection := .spread name []

private def replyFragment (name : Name) (selections : List Selection) : Definition :=
  .fragment ⟨none, name, ⟨"Reply", rfl⟩, [], selections⟩

private def authorName : Name := ⟨"Author", rfl⟩

private def bodyName : Name := ⟨"Body", rfl⟩

/-- Two fragments that spread each other, until both are defined again; a third has no use. -/
def replyDocument : Document where
  definitions := [
    replyFragment authorName [spreadOf bodyName],
    .operation ⟨none, .query, none, [], [], [spreadOf authorName]⟩,
    replyFragment bodyName [spreadOf authorName],
    replyFragment ⟨"Unused", rfl⟩ [nodeOf ⟨"date", rfl⟩],
    replyFragment bodyName [nodeOf ⟨"text", rfl⟩],
    replyFragment authorName [spreadOf bodyName, nodeOf ⟨"nick", rfl⟩],
    replyFragment ⟨"Unused", rfl⟩ [spreadOf ⟨"Absent", rfl⟩]]

theorem inlineDocument_replyDocument :
    (¬ replyDocument.fragmentNames.Nodup ∧
      ∃ before repeated after, replyDocument.fragments = before ++ repeated :: after ∧
        (before.map FragmentDefinition.name).Nodup ∧
        repeated.name ∈ before.map FragmentDefinition.name ∧
        inlineDocument .strict replyDocument = .error (.duplicate repeated.name)) ∧
    replyDocument.withoutShadowed.fragmentNames.Nodup ∧
      inlineDocument .strict replyDocument.withoutShadowed =
        inlineDocument .lenient replyDocument.withoutShadowed := by
  have shared : ¬ replyDocument.fragmentNames.Nodup := by decide +kernel
  have distinct : replyDocument.withoutShadowed.fragmentNames.Nodup := by decide +kernel
  refine ⟨⟨shared, ?_⟩, distinct, ?_⟩
  · exact (inlineDocument_strict_and_lenient replyDocument).1 shared
  · exact (inlineDocument_strict_and_lenient replyDocument.withoutShadowed).2.1 distinct

end Sample

end QueryPrep.Inline
