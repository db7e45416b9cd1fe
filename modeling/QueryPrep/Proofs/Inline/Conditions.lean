import QueryPrep.Proofs.Inline.Descent

/-!
# Conditional selections

The directives `@skip` and `@include` make a selection depend on a boolean. Under an assignment of
booleans to the variables, a key path of an operation remains selected if it can be read with all
conditions on the way let through, those of the nodes and those of the spreads in between.

Merging keeps the directives of the first node with a key path and no others. So the conditions
that count after inlining are those of the first occurrences. Where all nodes with a key path say
the same, nothing changes; where they differ, a path may be lost or gained.

What becomes of the conditions of the spreads themselves is left out here: where they matter, the
assignments are those that let every spread on the way through.
-/

namespace QueryPrep.Graphql

def Head.directives : Head → List Directive
  | .field _ _ _ directives => directives
  | .inlineFragment _ directives => directives

namespace Directive

/-- What the argument `if` of a directive comes to, if it is a boolean or a variable. -/
def condition? (assignment : Name → Bool) (directive : Directive) : Option Bool :=
  match directive.arguments.find? (·.name.text == "if") with
  | some ⟨_, .boolean value⟩ => some value
  | some ⟨_, .variable name⟩ => some (assignment name)
  | _ => none

/-- Whether a directive lets a selection through. Only `@skip` and `@include` may refuse. -/
def admits (assignment : Name → Bool) (directive : Directive) : Bool :=
  match directive.condition? assignment with
  | some condition =>
      (directive.name.text != "skip" || !condition) &&
        (directive.name.text != "include" || condition)
  | none => true

end Directive

/-- Whether all directives of a selection let it through. -/
def Admits (assignment : Name → Bool) (directives : List Directive) : Prop :=
  ∀ directive ∈ directives, directive.admits assignment = true

instance (assignment : Name → Bool) (directives : List Directive) :
    Decidable (Admits assignment directives) :=
  inferInstanceAs (Decidable (∀ directive ∈ directives, directive.admits assignment = true))

/-- A key path that can be read with every node and every spread on the way let through. -/
def RemainsSelected (document : Document) (assignment : Name → Bool)
    (siblings : List Selection) (path : List String) : Prop :=
  ∃ heads passed, Descends document siblings heads passed ∧ heads.map Head.key = path ∧
    (∀ head ∈ heads, Admits assignment head.directives) ∧
    ∀ directives ∈ passed, Admits assignment directives

/--
The same, except that it is not the nodes on the way that have to be let through, but those that are
the first with their keys.
-/
def FirstsRemain (document : Document) (assignment : Name → Bool)
    (siblings : List Selection) (path : List String) : Prop :=
  ∃ heads passed firsts, Descends document siblings heads passed ∧ heads.map Head.key = path ∧
    DescendsFirst document siblings firsts ∧ firsts.map Head.key = path ∧
    (∀ first ∈ firsts, Admits assignment first.directives) ∧
    ∀ directives ∈ passed, Admits assignment directives

/-- Every spread that is passed on the way to a node with the key path is let through. -/
def AdmitsSpreadsTo (document : Document) (assignment : Name → Bool)
    (siblings : List Selection) (path : List String) : Prop :=
  ∀ heads passed, Descends document siblings heads passed → heads.map Head.key = path →
    ∀ directives ∈ passed, Admits assignment directives

/-- Nodes with the same key path are let through together or not at all, all along a path. -/
def AgreeAlong (document : Document) (assignment : Name → Bool) (siblings : List Selection)
    (path : List String) : Prop :=
  ∀ parents head other, parents ++ [head.key] <+: path → other.key = head.key →
    OccursAt document siblings parents head → OccursAt document siblings parents other →
    (Admits assignment head.directives ↔ Admits assignment other.directives)

section Agreement

variable {document : Document} {assignment : Name → Bool} {siblings expanded : List Selection}
variable {path : List String}

/-- First heads are let through exactly if other heads with the same keys are. -/
theorem AgreeAlong.forall_admits_iff (expands : Expands document siblings expanded)
    (agree : AgreeAlong document assignment siblings path) {firsts heads : List Head}
    (hasFirsts : HasFirstHeads expanded firsts) (has : HasHeads expanded heads)
    (sameKeys : firsts.map Head.key = heads.map Head.key)
    (onPath : heads.map Head.key <+: path) :
    (∀ first ∈ firsts, Admits assignment first.directives) ↔
      ∀ head ∈ heads, Admits assignment head.directives := by
  induction heads using List.reverseRecOn generalizing firsts with
  | nil =>
      have none : firsts = [] := by simpa using sameKeys
      simp [none]
  | append_singleton heads head ih =>
      rcases List.eq_nil_or_concat firsts with rfl | ⟨firsts, first, rfl⟩
      · simp at sameKeys
      rw [List.concat_eq_append] at hasFirsts sameKeys ⊢
      simp only [List.map_append, List.map_singleton, List.append_singleton_inj] at sameKeys
      have onPathBefore : heads.map Head.key <+: path := by
        apply List.IsPrefix.trans _ onPath
        simp
      have before := ih hasFirsts.of_append has.of_append sameKeys.1 onPathBefore
      have firstOccurs : OccursAt document siblings (heads.map Head.key) first :=
        IsFirstAt.occursAt ⟨firsts, sameKeys.1, expanded, expands, hasFirsts⟩
      rcases expands.exists_descends has with ⟨passed, descends⟩
      have last := agree (heads.map Head.key) head first (by simpa using onPath) sameKeys.2
        ⟨heads, passed, rfl, descends⟩ firstOccurs
      simp only [List.forall_mem_append, List.forall_mem_singleton]
      rw [before, last]

/-- As long as nodes with the same key path agree, the first of them speak for all. -/
theorem firstsRemain_iff (expands : Expands document siblings expanded)
    (agree : AgreeAlong document assignment siblings path) :
    FirstsRemain document assignment siblings path ↔
      RemainsSelected document assignment siblings path := by
  constructor
  · rintro ⟨heads, passed, firsts, descends, rfl, ⟨other, otherExpands, hasFirsts⟩, sameKeys,
      admitted, spreads⟩
    have has := otherExpands.hasHeads descends
    refine ⟨heads, passed, descends, rfl, ?_, spreads⟩
    exact (agree.forall_admits_iff otherExpands hasFirsts has sameKeys List.prefix_rfl).mp admitted
  · rintro ⟨heads, passed, descends, rfl, admitted, spreads⟩
    have has := expands.hasHeads descends
    rcases has.exists_hasFirstHeads with ⟨firsts, sameKeys, hasFirsts⟩
    refine ⟨heads, passed, firsts, descends, rfl, ⟨expanded, expands, hasFirsts⟩, sameKeys, ?_,
      spreads⟩
    exact (agree.forall_admits_iff expands hasFirsts has sameKeys List.prefix_rfl).mpr admitted

end Agreement

end QueryPrep.Graphql

namespace QueryPrep.Inline

open QueryPrep.Graphql Selection

theorem remainsSelected_deepMerge_iff {document other : Document} {assignment : Name → Bool}
    {siblings expanded : List Selection} {path : List String}
    (expands : Expands document siblings expanded) (without : spreadsEach expanded = [])
    (admitsSpreads : AdmitsSpreadsTo document assignment siblings path) :
    RemainsSelected other assignment (deepMerge expanded) path ↔
      FirstsRemain document assignment siblings path := by
  constructor
  · rintro ⟨firsts, _, merged, rfl, admitted, _⟩
    have hasFirsts := ((descends_deepMerge_iff without).mp merged).1
    rcases hasFirsts.exists_hasHeads_map_key with ⟨heads, sameKeys, has⟩
    rcases expands.exists_descends has with ⟨passed, descends⟩
    exact ⟨heads, passed, firsts, descends, sameKeys, ⟨expanded, expands, hasFirsts⟩, rfl, admitted,
      admitsSpreads heads passed descends sameKeys⟩
  · rintro ⟨_, _, firsts, _, _, ⟨_, otherExpands, hasFirsts⟩, onPath, admitted, _⟩
    rw [otherExpands.unique expands] at hasFirsts
    have descends : Descends other (deepMerge expanded) firsts [] :=
      (descends_deepMerge_iff without).mpr ⟨hasFirsts, rfl⟩
    exact ⟨firsts, [], descends, onPath, admitted, by simp⟩

/--
On a path to which every spread is let through, what remains selected after inlining is what the
first occurrences let through. It is what remained selected before if occurrences of the same key
path agree.
-/
theorem remainsSelected_inlineDocument_iff {strictness : Strictness} {document inlined : Document}
    (succeeds : inlineDocument strictness document = .ok inlined) :
    List.Forall₂
      (fun before after => ∀ assignment path,
        AdmitsSpreadsTo document assignment before.selections path →
          (RemainsSelected inlined assignment after.selections path ↔
            FirstsRemain document assignment before.selections path) ∧
          (AgreeAlong document assignment before.selections path →
            (RemainsSelected inlined assignment after.selections path ↔
              RemainsSelected document assignment before.selections path)))
      document.operations inlined.operations := by
  apply (exists_expands_of_inlineDocument_eq_ok succeeds).imp
  rintro before after ⟨expanded, expands, without, same⟩ assignment path admitsSpreads
  rw [same, remainsSelected_deepMerge_iff expands without admitsSpreads]
  exact ⟨Iff.rfl, firstsRemain_iff expands⟩

section Sample

private def guardedHead (name : Name) (directives : List Directive) : Head :=
  .field none name [] directives

private def onShown (name : Name) : Directive :=
  ⟨name, [⟨⟨"if", rfl⟩, .variable ⟨"shown", rfl⟩⟩]⟩

private def guardedOperation (selections : List Selection) : Operation where
  description := none
  kind := .query
  name := none
  variableDefinitions := []
  directives := []
  selections := selections

private def viewerHead : Head := guardedHead ⟨"viewer", rfl⟩ [onShown ⟨"include", rfl⟩]

private def loginHead : Head := guardedHead ⟨"login", rfl⟩ []

private def detailsSpread : Selection := .spread ⟨"Details", rfl⟩ [onShown ⟨"include", rfl⟩]

private def detailsSelections : List Selection :=
  [.node viewerHead (some [.node loginHead none])]

/-- A query for a viewer and, through a spread, for the viewer's login; both only if `$shown`. -/
def detailsQuery : Document where
  definitions := [
    .operation (guardedOperation [.node viewerHead none, detailsSpread]),
    .fragment {
      description := none
      name := ⟨"Details", rfl⟩
      typeCondition := ⟨"Root", rfl⟩
      directives := []
      selections := detailsSelections
    }]

theorem exists_inlineDocument_detailsQuery_eq_ok :
    ∃ inlined, inlineDocument .strict detailsQuery = .ok inlined := by
  apply exists_eq_ok_of_isOk
  decide +kernel

/-- Whatever is read in the query, all nodes and spreads are let through if `$shown` holds. -/
theorem admits_of_descends_detailsQuery {heads : List Head} {passed : List (List Directive)}
    (descends : Descends detailsQuery [.node viewerHead none, detailsSpread] heads passed) :
    (∀ head ∈ heads, Admits (fun _ => true) head.directives) ∧
      ∀ directives ∈ passed, Admits (fun _ => true) directives := by
  have viewer : Admits (fun _ => true) viewerHead.directives := by decide
  have login : Admits (fun _ => true) loginHead.directives := by decide
  have within {heads : List Head} (has : HasHeads detailsSelections heads) :
      ∀ head ∈ heads, Admits (fun _ => true) head.directives := by
    match heads, has with
    | [], _ => simp
    | [first], ⟨set, member, _⟩ =>
        obtain ⟨rfl, rfl⟩ : first = viewerHead ∧ _ := by simpa [detailsSelections] using member
        simpa using viewer
    | first :: second :: rest, ⟨set, member, other, otherMember, below⟩ =>
        obtain ⟨rfl, rfl⟩ : first = viewerHead ∧ _ := by simpa [detailsSelections] using member
        obtain ⟨rfl, rfl⟩ : second = loginHead ∧ _ := by simpa using otherMember
        cases rest with
        | nil => simp [viewer, login]
        | cons third rest => simp [HasHeads] at below
  cases descends with
  | nil => simp
  | node inOperation below =>
      have leaf := List.mem_cons.mp inOperation
      simp only [detailsSpread, List.mem_singleton, reduceCtorEq, or_false,
        Selection.node.injEq] at leaf
      rcases leaf with ⟨rfl, rfl⟩
      cases below with
      | nil => simpa using viewer
      | node member _ => cases member
      | spread member _ _ => cases member
  | @spread _ name directives fragment _ passed inOperation found below =>
      have details := (List.mem_cons.mp inOperation).resolve_left (by simp)
      rw [List.mem_singleton, detailsSpread, Selection.spread.injEq] at details
      rcases details with ⟨rfl, rfl⟩
      have same : some _ = some fragment := found
      rw [Option.some.injEq] at same
      subst same
      rcases below.hasHeads_of_spreadsEach_eq_nil rfl with ⟨has, none⟩
      have spread : Admits (fun _ => true) [onShown ⟨"include", rfl⟩] := by decide
      exact ⟨within has, by simpa [none] using spread⟩

theorem remainsSelected_detailsQuery :
    ∃ inlined, inlineDocument .strict detailsQuery = .ok inlined ∧
      List.Forall₂
        (fun before after =>
          FirstsRemain detailsQuery (fun _ => true) before.selections
            [viewerHead.key, loginHead.key] ∧
          RemainsSelected inlined (fun _ => true) after.selections
            [viewerHead.key, loginHead.key] ∧
          RemainsSelected detailsQuery (fun _ => true) before.selections
            [viewerHead.key, loginHead.key])
        detailsQuery.operations inlined.operations := by
  rcases exists_inlineDocument_detailsQuery_eq_ok with ⟨inlined, succeeds⟩
  refine ⟨inlined, succeeds, ?_⟩
  have operations : detailsQuery.operations =
      [guardedOperation [.node viewerHead none, detailsSpread]] := rfl
  have remains := remainsSelected_inlineDocument_iff succeeds
  rw [operations] at remains ⊢
  rcases List.forall₂_cons_left_iff.mp remains with ⟨after, rest, first, none, same⟩
  rw [same, List.forall₂_nil_left_iff.mp none]
  refine .cons ?_ .nil
  rcases first (fun _ => true) [viewerHead.key, loginHead.key]
    (fun heads passed descends _ => (admits_of_descends_detailsQuery descends).2) with
    ⟨firsts, agreeing⟩
  have descends : Descends detailsQuery [.node viewerHead Option.none, detailsSpread]
      [viewerHead, loginHead] [[onShown ⟨"include", rfl⟩]] :=
    .spread (List.mem_cons_of_mem _ List.mem_cons_self) rfl
      (.node List.mem_cons_self (.node List.mem_cons_self .nil))
  have remainsBefore : FirstsRemain detailsQuery (fun _ => true)
      [.node viewerHead Option.none, detailsSpread] [viewerHead.key, loginHead.key] := by
    refine ⟨_, _, [viewerHead, loginHead], descends, rfl,
      ⟨_, .leaf (.spread rfl (.node (.leaf .nil) .nil) .nil), ?_⟩, rfl, by decide, by decide⟩
    simp [HasFirstHeads, setsWithKey, withKey, selections?]
  have remainsAfter := firsts.mpr remainsBefore
  refine ⟨remainsBefore, remainsAfter, (agreeing ?_).mp remainsAfter⟩
  rintro parents head other _ _ ⟨heads, _, _, descends⟩ ⟨others, _, _, otherDescends⟩
  have admitted := (admits_of_descends_detailsQuery descends).1 head List.mem_concat_self
  have otherAdmitted :=
    (admits_of_descends_detailsQuery otherDescends).1 other List.mem_concat_self
  exact iff_of_true admitted otherAdmitted

private def skippedHead : Head := guardedHead ⟨"a", rfl⟩ [onShown ⟨"skip", rfl⟩]

private def unguardedHead : Head := guardedHead ⟨"a", rfl⟩ []

private def twofoldSelections : List Selection :=
  [.node skippedHead none, .node unguardedHead none]

/-- A query that asks for a field twice: once unless `$shown` holds, and once in any case. -/
def twofoldQuery : Document :=
  .ofOperations [guardedOperation twofoldSelections]

theorem exists_inlineDocument_twofoldQuery_eq_ok :
    ∃ inlined, inlineDocument .strict twofoldQuery = .ok inlined := by
  apply exists_eq_ok_of_isOk
  decide +kernel

theorem remainsSelected_twofoldSelections :
    RemainsSelected twofoldQuery (fun _ => true) twofoldSelections [unguardedHead.key] := by
  have second : .node unguardedHead none ∈ twofoldSelections := by simp [twofoldSelections]
  exact ⟨[unguardedHead], [], .node second .nil, rfl, by decide, by simp⟩

theorem not_firstsRemain_twofoldSelections :
    ¬ FirstsRemain twofoldQuery (fun _ => true) twofoldSelections [unguardedHead.key] := by
  rintro ⟨_, _, firsts, _, _, ⟨expanded, expands, hasFirsts⟩, onPath, admitted, _⟩
  have unchanged : Expands twofoldQuery twofoldSelections twofoldSelections := .leaf (.leaf .nil)
  rw [expands.unique unchanged] at hasFirsts
  have skippedFirst : HasFirstHeads twofoldSelections [skippedHead] := by
    simp [HasFirstHeads, twofoldSelections, withKey]
  rw [hasFirsts.unique skippedFirst onPath] at admitted
  have refused : ¬ Admits (fun _ => true) skippedHead.directives := by decide
  exact refused (admitted skippedHead List.mem_cons_self)

/-- The first request is skipped, and the second one goes with it. -/
theorem not_remainsSelected_iff_twofoldQuery :
    ∃ inlined, inlineDocument .strict twofoldQuery = .ok inlined ∧
      ¬ List.Forall₂
        (fun before after => ∀ assignment path,
          RemainsSelected inlined assignment after.selections path ↔
            RemainsSelected twofoldQuery assignment before.selections path)
        twofoldQuery.operations inlined.operations := by
  rcases exists_inlineDocument_twofoldQuery_eq_ok with ⟨inlined, succeeds⟩
  refine ⟨inlined, succeeds, ?_⟩
  intro same
  have operations : twofoldQuery.operations = [guardedOperation twofoldSelections] := rfl
  have expansions := exists_expands_of_inlineDocument_eq_ok succeeds
  rw [operations] at same expansions
  rcases List.forall₂_cons_left_iff.mp expansions with
    ⟨after, rest, ⟨expanded, expands, without, merged⟩, _, afters⟩
  rw [afters] at same
  have remains := (List.forall₂_cons.mp same).1 _ _ |>.mpr remainsSelected_twofoldSelections
  have noSpreads : AdmitsSpreadsTo twofoldQuery (fun _ => true) twofoldSelections
      [unguardedHead.key] := by
    intro heads passed descends _
    simp [(descends.hasHeads_of_spreadsEach_eq_nil rfl).2]
  rw [merged, remainsSelected_deepMerge_iff expands without noSpreads] at remains
  exact not_firstsRemain_twofoldSelections remains

end Sample

end QueryPrep.Inline
