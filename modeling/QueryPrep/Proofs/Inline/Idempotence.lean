import QueryPrep.Proofs.Inline.NormalForm

/-!
# Inlining twice

What has been inlined has nothing left to inline: there is no spread to replace, every level is
merged, and no fragment could be defined twice. So inlining it again gives it back, and that not
only up to the order of selections but exactly, with all that the selections say.

The same is true of texts, as far as reading undoes printing.
-/

namespace QueryPrep.Inline

open QueryPrep.Graphql Selection

section Substitution

variable {replace : String → Except InlineError (List Selection)}

mutual

theorem substituteSelection_eq_self {selection : Selection} (without : selection.spreads = []) :
    substituteSelection replace selection = .ok [selection] := by
  cases selection with
  | spread name directives => simp [spreads] at without
  | node head set =>
      cases set with
      | none => rfl
      | some selections =>
          rw [substituteSelection, substituteEach_eq_self without]
          rfl

theorem substituteEach_eq_self {selections : List Selection}
    (without : spreadsEach selections = []) :
    substituteEach replace selections = .ok selections := by
  cases selections with
  | nil => rfl
  | cons selection rest =>
      rw [spreadsEach, List.append_eq_nil_iff] at without
      rw [substituteEach, substituteSelection_eq_self without.1, substituteEach_eq_self without.2]
      rfl

end

end Substitution

section Documents

variable {map : FragmentMap} {strictness : Strictness} {document inlined : Document}

theorem mapM_substituteOperation_eq_self {operations : List Operation}
    (without : ∀ operation ∈ operations, spreadsEach operation.selections = []) :
    operations.mapM (substituteOperation map) = .ok operations := by
  induction operations with
  | nil => rfl
  | cons operation rest ih =>
      have first : substituteOperation map operation = .ok operation := by
        rw [substituteOperation, substituteEach_eq_self (without _ List.mem_cons_self)]
        rfl
      have others := ih fun other later => without other (List.mem_cons_of_mem _ later)
      rw [List.mapM_cons, first, others]
      rfl

theorem normalizeOperation_eq_self {operation : Operation}
    (merged : IsMerged operation.selections) : normalizeOperation operation = operation := by
  rw [normalizeOperation, deepMerge_eq_self merged]
  rfl

theorem ofDocument_ofOperations (operations : List Operation) :
    FragmentMap.ofDocument strictness (Document.ofOperations operations) =
      .ok FragmentMap.empty := by
  have none : (Document.ofOperations operations).fragments = [] :=
    Document.fragments_ofOperations operations
  cases strictness <;> simp [FragmentMap.ofDocument, none, FragmentMap.redefinitions,
    FragmentMap.ofFragments]

/-- Merged operations without spreads are left as they are. -/
theorem inlineDocument_ofOperations {operations : List Operation}
    (without : ∀ operation ∈ operations, spreadsEach operation.selections = [])
    (merged : ∀ operation ∈ operations, IsMerged operation.selections) :
    inlineDocument strictness (Document.ofOperations operations) =
      .ok (Document.ofOperations operations) := by
  have unchanged : operations.map normalizeOperation = operations := by
    apply (List.map_congr_left _).trans (List.map_id operations)
    intro operation member
    exact normalizeOperation_eq_self (merged operation member)
  rw [inlineDocument_eq_of_ofDocument (ofDocument_ofOperations operations),
    Document.operations_ofOperations, mapM_substituteOperation_eq_self without, Except.map,
    unchanged]

/-- What an inlined operation holds is a substitution, merged. -/
theorem exists_substituted_of_mem_inlined
    (succeeds : inlineDocument strictness document = .ok inlined) {operation : Operation}
    (member : operation ∈ inlined.operations) : ∃ map selections substituted,
      substituteEach (substituteFragment map []) selections = .ok substituted ∧
        operation.selections = deepMerge substituted := by
  rcases exists_of_inlineDocument_eq_ok succeeds with ⟨map, _, _, agree⟩
  rcases List.mem_iff_getElem.mp member with ⟨index, inBounds, rfl⟩
  have before := agree.length_eq ▸ inBounds
  rcases (List.forall₂_iff_get.mp agree).2 index before inBounds with ⟨substituted, replaced, same⟩
  exact ⟨map, _, substituted, replaced, congrArg Operation.selections same⟩

theorem inlineDocument_inlined (succeeds : inlineDocument strictness document = .ok inlined)
    (again : Strictness) : inlineDocument again inlined = .ok inlined := by
  rcases exists_of_inlineDocument_eq_ok succeeds with ⟨_, _, operationsOnly, _⟩
  rw [operationsOnly]
  apply inlineDocument_ofOperations
  · intro operation member
    rcases exists_substituted_of_mem_inlined succeeds member with
      ⟨map, selections, substituted, replaced, same⟩
    have without : spreadsEach substituted = [] :=
      spreadsEach_of_substituteEach
        (fun _ _ innerSucceeds => spreadsEach_of_substituteFragment innerSucceeds) replaced
    apply List.subset_nil.mp
    rw [same, ← without]
    exact spreadsEach_deepMerge_subset substituted
  · intro operation member
    rcases exists_substituted_of_mem_inlined succeeds member with
      ⟨map, selections, substituted, _, same⟩
    rw [same]
    exact isMerged_deepMerge substituted

end Documents

section Texts

/-- Reading undoes printing, unless there is nothing to read. -/
def ReadsBack (document : Document) : Prop :=
  document.definitions ≠ [] → Document.parse document.print = .ok document

variable {strictness : Strictness} {text printed : String} {document inlined : Document}

theorem inlineText_of_parse (parsed : Document.parse text = .ok document)
    (succeeds : inlineDocument strictness document = .ok inlined) :
    inlineText strictness text = .ok inlined.print := by
  simp only [inlineText, parsed, succeeds]

theorem exists_of_inlineText_eq_ok (succeeds : inlineText strictness text = .ok printed) :
    ∃ document inlined, Document.parse text = .ok document ∧
      inlineDocument strictness document = .ok inlined ∧ printed = inlined.print := by
  cases parsed : Document.parse text with
  | error error => simp [inlineText, parsed] at succeeds
  | ok document =>
      cases outcome : inlineDocument strictness document with
      | error error => simp [inlineText, parsed, outcome] at succeeds
      | ok inlined =>
          rw [inlineText_of_parse parsed outcome, Except.ok.injEq] at succeeds
          exact ⟨document, inlined, rfl, outcome, succeeds.symm⟩

theorem definitions_ne_nil_of_inlineDocument
    (succeeds : inlineDocument strictness document = .ok inlined)
    (some : document.operations ≠ []) : inlined.definitions ≠ [] := by
  rcases exists_of_inlineDocument_eq_ok succeeds with ⟨_, _, operationsOnly, agree⟩
  have same := agree.length_eq
  intro none
  apply some
  apply List.eq_nil_of_length_eq_zero
  rw [same, Document.operations, none, List.filterMap_nil, List.length_nil]

end Texts

/--
Inlining an inlined document changes nothing, in both modes. So inlining the text that comes of
inlining a text changes nothing either, if there is an operation and the document that was printed
is the document that is read back.
-/
theorem inline_idempotent (strictness again : Strictness) :
    (∀ document inlined, inlineDocument strictness document = .ok inlined →
      inlineDocument again inlined = .ok inlined) ∧
    ∀ text printed, inlineText strictness text = .ok printed →
      ∃ document inlined, Document.parse text = .ok document ∧
        inlineDocument strictness document = .ok inlined ∧ printed = inlined.print ∧
          (document.operations ≠ [] → ReadsBack inlined →
            inlineText again printed = .ok printed) := by
  constructor
  · intro document inlined succeeds
    exact inlineDocument_inlined succeeds again
  · intro text printed succeeds
    rcases exists_of_inlineText_eq_ok succeeds with ⟨document, inlined, parsed, outcome, rfl⟩
    refine ⟨document, inlined, parsed, outcome, rfl, ?_⟩
    intro some readsBack
    have present := definitions_ne_nil_of_inlineDocument outcome some
    exact inlineText_of_parse (readsBack present) (inlineDocument_inlined outcome again)

section Sample

/-- A query for a version, by itself and through a fragment. -/
def releaseText : String :=
  "query \x7b version ...Release \x7d fragment Release on Service \x7b version \x7d"

/-- A query for a single field. -/
def fieldQuery (name : Name) : Document :=
  .ofOperations [{
    description := none
    kind := .query
    name := none
    variableDefinitions := []
    directives := []
    selections := [.node (.field none name [] []) none]
  }]

/-- The field that a query asks for, if it asks for no more than that. -/
def soleField? : Document → Option Name
  | ⟨[.operation ⟨none, .query, none, [], [], [.node (.field none name [] []) none]⟩]⟩ => some name
  | _ => none

theorem eq_fieldQuery {document : Document} {name : Name}
    (sole : soleField? document = some name) : document = fieldQuery name := by
  unfold soleField? at sole
  split at sole
  case h_1 =>
    cases sole
    rfl
  case h_2 => cases sole

/-- What is left of the query for a version. -/
def inlinedReleaseQuery : Document :=
  fieldQuery ⟨"version", rfl⟩

theorem parse_print_inlinedReleaseQuery :
    Document.parse inlinedReleaseQuery.print = .ok inlinedReleaseQuery := by
  have fields : (Document.parse inlinedReleaseQuery.print).toOption.bind soleField? =
      some ⟨"version", rfl⟩ := by decide +kernel
  cases parsed : Document.parse inlinedReleaseQuery.print with
  | error error => simp [parsed, Except.toOption] at fields
  | ok document =>
      rw [parsed, Except.toOption, Option.bind_some] at fields
      rw [eq_fieldQuery fields, inlinedReleaseQuery]

theorem exists_inlined_releaseText :
    ∃ document, Document.parse releaseText = .ok document ∧
      inlineDocument .lenient document = .ok inlinedReleaseQuery := by
  have fields : ((Document.parse releaseText).toOption.bind fun document =>
      (inlineDocument .lenient document).toOption.bind soleField?) = some ⟨"version", rfl⟩ := by
    decide +kernel
  cases parsed : Document.parse releaseText with
  | error error => simp [parsed, Except.toOption] at fields
  | ok document =>
      rw [parsed, Except.toOption, Option.bind_some] at fields
      cases outcome : inlineDocument .lenient document with
      | error error => simp [outcome, Except.toOption] at fields
      | ok inlined =>
          rw [outcome, Except.toOption, Option.bind_some] at fields
          exact ⟨document, rfl, by rw [outcome, eq_fieldQuery fields, inlinedReleaseQuery]⟩

theorem inline_idempotent_releaseQuery :
    inlineDocument .strict inlinedReleaseQuery = .ok inlinedReleaseQuery ∧
      inlineText .lenient releaseText = .ok inlinedReleaseQuery.print ∧
      ReadsBack inlinedReleaseQuery ∧
      inlineText .strict inlinedReleaseQuery.print = .ok inlinedReleaseQuery.print := by
  rcases exists_inlined_releaseText with ⟨query, parsed, outcome⟩
  have readsBack : ReadsBack inlinedReleaseQuery := fun _ => parse_print_inlinedReleaseQuery
  have succeeds := inlineText_of_parse parsed outcome
  have some : query.operations ≠ [] := by
    rcases exists_of_inlineDocument_eq_ok outcome with ⟨_, _, _, agree⟩
    intro none
    rw [none] at agree
    cases agree
  rcases inline_idempotent .lenient .strict with ⟨documents, texts⟩
  refine ⟨documents _ _ outcome, succeeds, readsBack, ?_⟩
  rcases texts _ _ succeeds with ⟨document, inlined, sameParsed, sameOutcome, _, again⟩
  rw [parsed, Except.ok.injEq] at sameParsed
  subst document
  rw [outcome, Except.ok.injEq] at sameOutcome
  subst inlined
  exact again some readsBack

end Sample

end QueryPrep.Inline
