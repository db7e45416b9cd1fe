import QueryPrep.Proofs.Inline.FragmentGraph
import QueryPrep.Proofs.Inline.Refinement

/-!
# What inlining depends on

An operation depends on the fragments that it leads to, and on nothing else in the document. This
file compares two documents whose maps agree on a set of names. If the set is closed under
spreading and holds whatever the operations spread, then nobody can tell from the inlined
operations, nor from the error, which of the two documents they come from.

The fragments that are remembered while a document is inlined are shared by its operations. Since
an expansion agrees with a plain substitution, what one operation leaves behind does not show in
the next one either.
-/

namespace QueryPrep.Inline

open QueryPrep.Graphql Selection

variable {document other : Document} {map otherMap : FragmentMap} {relevant : String → Prop}
variable {strictness : Strictness}

/-- Two maps agree on the relevant names, and these spread nothing but relevant names. -/
structure FragmentMap.AgreeOn (relevant : String → Prop) (map other : FragmentMap) : Prop where
  same : ∀ name, relevant name → map.find? name = other.find? name
  closed : ∀ name fragment, relevant name → map.find? name = some fragment →
    ∀ inner ∈ spreadsEach fragment.selections, relevant inner

section Substitutions

theorem FragmentMap.AgreeOn.substituteFragment_eq
    (agree : FragmentMap.AgreeOn relevant map otherMap) (path : List String) {name : String}
    (isRelevant : relevant name) :
    substituteFragment map path name = substituteFragment otherMap path name := by
  have same := agree.same name isRelevant
  by_cases opened : name ∈ path
  · rw [substituteFragment_of_mem opened, substituteFragment_of_mem opened]
  cases found : map.find? name with
  | none =>
      rw [substituteFragment_of_find?_eq_none opened found,
        substituteFragment_of_find?_eq_none opened (same ▸ found)]
  | some fragment =>
      rw [substituteFragment_of_find?_eq_some opened found,
        substituteFragment_of_find?_eq_some opened (same ▸ found)]
      apply substituteEach_congr
      intro inner spread
      exact agree.substituteFragment_eq _ (agree.closed name fragment isRelevant found inner spread)
termination_by map.unopened path
decreasing_by exact FragmentMap.unopened_append_lt found opened

theorem FragmentMap.AgreeOn.substituteOperation_eq
    (agree : FragmentMap.AgreeOn relevant map otherMap) {operation : Operation}
    (spreadsRelevant : ∀ name ∈ spreadsEach operation.selections, relevant name) :
    substituteOperation map operation = substituteOperation otherMap operation := by
  rw [substituteOperation, substituteOperation, substituteEach_congr operation.selections]
  intro name spread
  exact agree.substituteFragment_eq [] (spreadsRelevant name spread)

theorem mapM_substituteOperation_congr {operations : List Operation}
    (same : ∀ operation ∈ operations,
      substituteOperation map operation = substituteOperation otherMap operation) :
    operations.mapM (substituteOperation map) = operations.mapM (substituteOperation otherMap) := by
  induction operations with
  | nil => rfl
  | cons operation rest ih =>
      rw [List.forall_mem_cons] at same
      rw [List.mapM_cons, List.mapM_cons, same.1, ih same.2]

end Substitutions

/-- Documents with the same operations are told apart by nothing but relevant names. -/
theorem inlineDocument_eq_of_agreeOn {otherStrictness : Strictness}
    (mapped : FragmentMap.ofDocument strictness document = .ok map)
    (otherMapped : FragmentMap.ofDocument otherStrictness other = .ok otherMap)
    (sameOperations : document.operations = other.operations)
    (agree : FragmentMap.AgreeOn relevant map otherMap)
    (opensRelevant : ∀ name, document.Opens name → relevant name) :
    inlineDocument strictness document = inlineDocument otherStrictness other := by
  rw [inlineDocument_eq_of_ofDocument mapped, inlineDocument_eq_of_ofDocument otherMapped,
    ← sameOperations, mapM_substituteOperation_congr]
  intro operation member
  apply agree.substituteOperation_eq
  intro name spread
  exact opensRelevant name ⟨operation, member, spread⟩

theorem agreeOn_reaches (agrees : ∀ name, map.find? name = document.lastFragment? name)
    (same : ∀ name, document.Reaches name → map.find? name = otherMap.find? name) :
    FragmentMap.AgreeOn document.Reaches map otherMap where
  same := same
  closed := by
    intro name fragment reached found inner spread
    exact .through reached ⟨fragment, agrees name ▸ found, spread⟩

theorem ofDocument_congr (sameFragments : document.fragments = other.fragments) :
    FragmentMap.ofDocument strictness document = FragmentMap.ofDocument strictness other := by
  unfold FragmentMap.ofDocument
  rw [sameFragments]

/-- What becomes of an operation does not depend on the operations around it. -/
theorem inlineDocument_of_operation_of_fragments {single : Document} {operation : Operation}
    {substituted : List Selection} (mapped : FragmentMap.ofDocument strictness document = .ok map)
    (replaced : substituteEach (substituteFragment map []) operation.selections = .ok substituted)
    (only : single.operations = [operation])
    (sameFragments : single.fragments = document.fragments) :
    inlineDocument strictness single =
      .ok (Document.ofOperations [operation.withSelections (deepMerge substituted)]) := by
  have singleMapped := (ofDocument_congr sameFragments).trans mapped
  have operationReplaced := substituteOperation_eq_ok_iff.mpr ⟨substituted, replaced, rfl⟩
  rw [inlineDocument_eq_of_ofDocument singleMapped, only, List.mapM_cons, List.mapM_nil,
    operationReplaced]
  rfl

/--
Only the fragments that the operations lead to matter. Two documents with the same operations whose
fragment maps agree on the names that the operations lead to are inlined to the same operations, or
fail with the same error, whatever else they define. And if a document can be inlined, each of its
operations comes out as it does from any document that holds the fragments and no other operation.
-/
theorem inlineDocument_depends_on_reached :
    (∀ document other : Document, document.operations = other.operations →
      (∀ name, document.Reaches name →
        (FragmentMap.ofFragments document.fragments).find? name =
          (FragmentMap.ofFragments other.fragments).find? name) →
      inlineDocument .lenient document = inlineDocument .lenient other) ∧
    ∀ strictness document inlined, inlineDocument strictness document = .ok inlined →
      List.Forall₂
        (fun before after => ∀ single : Document, single.operations = [before] →
          single.fragments = document.fragments →
          inlineDocument strictness single = .ok (Document.ofOperations [after]))
        document.operations inlined.operations := by
  constructor
  · intro document other sameOperations same
    have mapped := FragmentMap.ofDocument_lenient document
    have agree := agreeOn_reaches (FragmentMap.find?_of_ofDocument mapped) same
    exact inlineDocument_eq_of_agreeOn mapped (FragmentMap.ofDocument_lenient other) sameOperations
      agree fun _ => .opened
  · intro strictness document inlined succeeds
    rcases exists_of_inlineDocument_eq_ok succeeds with ⟨map, mapped, _, agree⟩
    apply agree.imp
    rintro before after ⟨substituted, replaced, rfl⟩ single only sameFragments
    exact inlineDocument_of_operation_of_fragments mapped replaced only sameFragments

section Sample

/-- A field without arguments and directives that is asked for the given selections. -/
private def fieldOver (name : Name) (selections : Option (List Selection)) : Selection :=
  .node (.field none name [] []) selections

private def fragmentOf (name : Name) (selections : List Selection) : Definition :=
  .fragment ⟨none, name, ⟨"Money", rfl⟩, [], selections⟩

private def queryOf (selections : List Selection) : Definition :=
  .operation ⟨none, .query, none, [], [], selections⟩

private def priceName : Name := ⟨"Price", rfl⟩

private def itemQuery : Definition :=
  queryOf [fieldOver ⟨"item", rfl⟩ (some [.spread priceName []])]

private def totalQuery : Definition := queryOf [.spread priceName [], fieldOver ⟨"total", rfl⟩ none]

private def priceFragment : Definition :=
  fragmentOf priceName [fieldOver ⟨"amount", rfl⟩ none, .spread ⟨"Currency", rfl⟩ []]

private def currencyFragment : Definition :=
  fragmentOf ⟨"Currency", rfl⟩ [fieldOver ⟨"code", rfl⟩ none]

/-- Two queries that share a fragment, which spreads another one. -/
def priceDocument : Document := ⟨[itemQuery, totalQuery, priceFragment, currencyFragment]⟩

/--
The same queries between fragments in another order. One fragment spreads itself, and an earlier
definition of a fragment spreads one that is missing.
-/
def crowdedDocument : Document where
  definitions := [
    fragmentOf ⟨"Loop", rfl⟩ [.spread ⟨"Loop", rfl⟩ []],
    fragmentOf priceName [.spread ⟨"Missing", rfl⟩ []],
    currencyFragment, itemQuery, priceFragment, totalQuery]

theorem reaches_priceDocument {name : String} (reached : priceDocument.Reaches name) :
    name ∈ ["Price", "Currency"] :=
  reached.mem_of_closed (by decide +kernel) (by decide +kernel)

theorem inlineDocument_crowdedDocument : ∃ inlined,
    inlineDocument .lenient crowdedDocument = .ok inlined ∧
      List.Forall₂
        (fun before after => ∀ single : Document, single.operations = [before] →
          single.fragments = priceDocument.fragments →
          inlineDocument .lenient single = .ok (Document.ofOperations [after]))
        priceDocument.operations inlined.operations := by
  have succeeds : (inlineDocument .lenient priceDocument).isOk = true := by decide +kernel
  rcases exists_eq_ok_of_isOk succeeds with ⟨inlined, inlinedEq⟩
  have same : inlineDocument .lenient priceDocument = inlineDocument .lenient crowdedDocument := by
    apply inlineDocument_depends_on_reached.1
    · rfl
    · intro name reached
      have named := reaches_priceDocument reached
      simp only [List.mem_cons, List.not_mem_nil, or_false] at named
      rcases named with rfl | rfl <;> rfl
  exact ⟨inlined, same ▸ inlinedEq, inlineDocument_depends_on_reached.2 _ _ _ inlinedEq⟩

end Sample

end QueryPrep.Inline
