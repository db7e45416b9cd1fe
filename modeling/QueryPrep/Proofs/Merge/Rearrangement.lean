import QueryPrep.Proofs.Merge.ArgumentKeys
import QueryPrep.Proofs.Merge.Batches

/-!
# Arguments in another order

Arguments, and the fields of an object, may stand in any order. This file sets the order apart from
the values: one value is a rearrangement of another if they differ in the order of fields only, at
any depth, and if the scalars in them are alike. What counts as alike is left open.

A key sees scalars by their text. So without repeated names, two lists of arguments have the same
key exactly if one rearranges the other and literals of the same text are alike, be they of the same
kind or not. Keys do not tell kinds apart: a number and a string of the same digits share a key, and
of two fields that differ in this only the first is kept.
-/

namespace QueryPrep.Graphql

universe u

section Distinct

variable {Item : Type u} {name : Name} {value : Item} {entries : List (Name × Item)}

theorem valuesNamed_of_nodup (distinct : (entries.map Prod.fst).Nodup)
    (member : (name, value) ∈ entries) : valuesNamed name entries = [value] := by
  induction entries with
  | nil => cases member
  | cons entry entries ih =>
      rw [List.map_cons, List.nodup_cons] at distinct
      rcases List.mem_cons.mp member with rfl | later
      · rw [valuesNamed_cons_self, valuesNamed_eq_nil_iff.mpr distinct.1]
      · have differs : entry.1 ≠ name := by
          rintro rfl
          exact distinct.1 (List.mem_map.mpr ⟨_, later, rfl⟩)
        rw [valuesNamed_cons_of_ne differs, ih distinct.2 later]

theorem getLast?_valuesNamed_of_nodup (distinct : (entries.map Prod.fst).Nodup)
    (member : (name, value) ∈ entries) : (valuesNamed name entries).getLast? = some value := by
  rw [valuesNamed_of_nodup distinct member]
  rfl

theorem valuesNamed_eq_toList_getLast? (distinct : (entries.map Prod.fst).Nodup) :
    valuesNamed name entries = (valuesNamed name entries).getLast?.toList := by
  cases values : valuesNamed name entries with
  | nil => rfl
  | cons value rest =>
      have member : (name, value) ∈ entries := by
        rw [← mem_valuesNamed_iff, values]
        exact List.mem_cons_self
      rw [← values, valuesNamed_of_nodup distinct member]
      rfl

end Distinct

namespace Value

/-- Scalars of the same kind with the same content. A string may be written in another style. -/
inductive SameScalar : Value → Value → Prop
  | variable (name : Name) : SameScalar (.variable name) (.variable name)
  | int (text : String) : SameScalar (.int text) (.int text)
  | float (text : String) : SameScalar (.float text) (.float text)
  | string {first second : StringLiteral} (same : first.value = second.value) :
      SameScalar (.string first) (.string second)
  | boolean (value : Bool) : SameScalar (.boolean value) (.boolean value)
  | null : SameScalar .null .null
  | enum (name : Name) : SameScalar (.enum name) (.enum name)

/-- Scalars that are the same but for the kind of a number, a word or a string. -/
def SameText (first second : Value) : Prop :=
  SameScalar first second ∨
    ∃ text, first.literalText? = some text ∧ second.literalText? = some text

/--
Values that differ in the order of fields only, with scalars that are alike. The first field of one
object is found among the fields of the other, ahead of all others of its name, and what is left of
the two differs in the order of fields only.
-/
inductive Rearranged (alike : Value → Value → Prop) : Value → Value → Prop
  | scalar {first second : Value} (same : alike first second) : Rearranged alike first second
  | nil : Rearranged alike (.list []) (.list [])
  | cons {value other : Value} {values others : List Value} (head : Rearranged alike value other)
      (tail : Rearranged alike (.list values) (.list others)) :
      Rearranged alike (.list (value :: values)) (.list (other :: others))
  | empty : Rearranged alike (.object []) (.object [])
  | field {name : Name} {value other : Value} {fields before after : List (Name × Value)}
      (first : name ∉ before.map Prod.fst) (head : Rearranged alike value other)
      (rest : Rearranged alike (.object fields) (.object (before ++ after))) :
      Rearranged alike (.object ((name, value) :: fields))
        (.object (before ++ (name, other) :: after))

mutual

/-- No object in the value has two fields of one name. -/
def NoRepeats : Value → Prop
  | .list values => NoRepeatsEach values
  | .object fields => (fields.map Prod.fst).Nodup ∧ NoRepeatsFields fields
  | _ => True

def NoRepeatsEach : List Value → Prop
  | [] => True
  | value :: rest => value.NoRepeats ∧ NoRepeatsEach rest

def NoRepeatsFields : List (Name × Value) → Prop
  | [] => True
  | (_, value) :: rest => value.NoRepeats ∧ NoRepeatsFields rest

end

variable {name : Name} {value other : Value} {fields others : List (Name × Value)}

theorem NoRepeatsFields.of_mem (distinct : NoRepeatsFields fields)
    (member : (name, value) ∈ fields) : value.NoRepeats := by
  induction fields with
  | nil => cases member
  | cons field fields ih =>
      rcases List.mem_cons.mp member with rfl | later
      · exact distinct.1
      · exact ih distinct.2 later

theorem SameText.canonical_eq (same : SameText value other) :
    value.canonical = other.canonical := by
  rcases same with same | ⟨text, firstText, secondText⟩
  · cases same with
    | string same => simp [canonical, same]
    | _ => rfl
  · rw [canonical_eq_text_iff.mpr firstText, canonical_eq_text_iff.mpr secondText]

theorem Rearranged.canonical_eq (rearranged : Rearranged SameText value other) :
    value.canonical = other.canonical := by
  induction rearranged with
  | scalar same => exact same.canonical_eq
  | nil => rfl
  | cons _ _ headSame tailSame =>
      simp only [canonical, CanonicalValue.list.injEq] at tailSame
      simp only [canonical, canonicalEach, headSame, tailSame]
  | empty => rfl
  | @field fieldName value other fields before after first _ _ headSame restSame =>
      rw [canonical_object_eq_iff] at restSame ⊢
      intro name
      have restNamed := restSame name
      rw [valuesNamed_append] at restNamed ⊢
      by_cases same : fieldName = name
      · subst name
        rw [valuesNamed_eq_nil_iff.mpr first, List.nil_append] at restNamed ⊢
        rw [valuesNamed_cons_self, valuesNamed_cons_self, List.getLast?_cons, List.getLast?_cons,
          Option.map_some, Option.map_some, ← Option.getD_map canonical,
          ← Option.getD_map canonical, restNamed, headSame]
      · rwa [valuesNamed_cons_of_ne same, valuesNamed_cons_of_ne same]

/-- Objects of distinct names are rearranged if they have the same names, with such values. -/
theorem rearranged_object {alike : Value → Value → Prop}
    (distinct : (fields.map Prod.fst).Nodup) (otherDistinct : (others.map Prod.fst).Nodup)
    (sameNames : ∀ name, name ∈ fields.map Prod.fst ↔ name ∈ others.map Prod.fst)
    (each : ∀ name value other, (name, value) ∈ fields → (name, other) ∈ others →
      Rearranged alike value other) :
    Rearranged alike (.object fields) (.object others) := by
  induction fields generalizing others with
  | nil =>
      cases others with
      | nil => exact .empty
      | cons other others =>
          have missing := (sameNames other.1).mpr List.mem_cons_self
          cases missing
  | cons field fields ih =>
      rcases field with ⟨first, value⟩
      have named := (sameNames first).mp List.mem_cons_self
      rcases List.mem_map.mp named with ⟨⟨fieldName, other⟩, found, rfl⟩
      rcases List.append_of_mem found with ⟨before, after, rfl⟩
      have apart := (List.perm_middle.map Prod.fst).nodup_iff.mp otherDistinct
      rw [List.map_cons, List.nodup_cons] at distinct apart
      refine .field ?_ (each _ _ _ List.mem_cons_self found) (ih distinct.2 apart.2 ?_ ?_)
      · intro inBefore
        exact apart.1 (by rw [List.map_append]; exact List.mem_append_left _ inBefore)
      · intro name
        have sameName := sameNames name
        rw [(List.perm_middle.map Prod.fst).mem_iff, List.map_cons, List.map_cons, List.mem_cons,
          List.mem_cons] at sameName
        by_cases isFirst : name = fieldName
        · rw [isFirst]
          exact iff_of_false distinct.1 apart.1
        · simpa [isFirst] using sameName
      · intro name value other member otherMember
        apply each name value other (List.mem_cons_of_mem _ member)
        exact List.perm_middle.mem_iff.mpr (List.mem_cons_of_mem _ otherMember)

theorem CanonicallyEqual.rearranged (same : CanonicallyEqual value other)
    (distinct : value.NoRepeats) (otherDistinct : other.NoRepeats) :
    Rearranged SameText value other := by
  induction same with
  | boolean value => exact .scalar (.inl (.boolean value))
  | null => exact .scalar (.inl .null)
  | literal firstText secondText => exact .scalar (.inr ⟨_, firstText, secondText⟩)
  | nil => exact .nil
  | cons _ _ headSame tailSame =>
      exact .cons (headSame distinct.1 otherDistinct.1) (tailSame distinct.2 otherDistinct.2)
  | object sameNames _ sameValues =>
      rw [NoRepeats] at distinct otherDistinct
      apply rearranged_object distinct.1 otherDistinct.1 sameNames
      intro name value other member otherMember
      exact sameValues name value other (getLast?_valuesNamed_of_nodup distinct.1 member)
        (getLast?_valuesNamed_of_nodup otherDistinct.1 otherMember)
        (distinct.2.of_mem member) (otherDistinct.2.of_mem otherMember)
  | _ => exact .scalar (.inl (.variable _))

/-- Without repeated names, values come to the same exactly if one rearranges the other. -/
theorem canonicallyEqual_iff_rearranged (distinct : value.NoRepeats)
    (otherDistinct : other.NoRepeats) :
    CanonicallyEqual value other ↔ Rearranged SameText value other :=
  ⟨fun same => same.rearranged distinct otherDistinct,
    fun rearranged => canonicallyEqual_iff.mpr rearranged.canonical_eq⟩

end Value

/-- No name comes twice, neither among the arguments nor in an object of a value. -/
def NoRepeatedNames (arguments : List Argument) : Prop :=
  (Value.object (arguments.map Argument.entry)).NoRepeats

/-- Arguments in another order, as the fields of an object may be, with scalars that are alike. -/
def Rearranges (alike : Value → Value → Prop) (first second : List Argument) : Prop :=
  Value.Rearranged alike (.object (first.map Argument.entry)) (.object (second.map Argument.entry))

/--
Lists of arguments without repeated names have the same key exactly if one rearranges the other,
with numbers, words and strings compared by their text.
-/
theorem argumentKey_eq_iff_rearranges {first second : List Argument}
    (distinct : NoRepeatedNames first) (otherDistinct : NoRepeatedNames second) :
    argumentKey first = argumentKey second ↔ Rearranges Value.SameText first second := by
  rw [Rearranges, ← Value.canonicallyEqual_iff_rearranged distinct otherDistinct,
    Value.canonicallyEqual_iff, Value.canonical_object_eq_iff,
    argumentKey_eq_iff_canonicalEntries_eq, canonicalEntries_eq_iff]
  apply forall_congr'
  intro name
  conv_lhs =>
    rw [valuesNamed_eq_toList_getLast? distinct.1, valuesNamed_eq_toList_getLast? otherDistinct.1]
  cases (valuesNamed name (first.map Argument.entry)).getLast? <;>
    cases (valuesNamed name (second.map Argument.entry)).getLast? <;> simp

section Sample

private def whereName : Name := ⟨"where", rfl⟩

private def sizeName : Name := ⟨"size", rfl⟩

private def colorName : Name := ⟨"color", rfl⟩

private def ownerArgument : Argument := ⟨⟨"owner", rfl⟩, .variable ⟨"me", rfl⟩⟩

private def wordCondition : Value :=
  .object [(sizeName, .int "1"), (colorName, .enum ⟨"RED", rfl⟩)]

private def quotedCondition : Value :=
  .object [(colorName, .string ⟨"RED", .quoted⟩), (sizeName, .int "1")]

/-- The arguments `where: {size: 1, color: RED}, owner: $me`. -/
def findArguments : List Argument := [⟨whereName, wordCondition⟩, ownerArgument]

/-- The same in another order, with a string for the word. -/
def rearrangedArguments : List Argument := [ownerArgument, ⟨whereName, quotedCondition⟩]

theorem rearranged_wordCondition :
    Value.Rearranged Value.SameText wordCondition quotedCondition := by
  have color : Value.Rearranged Value.SameText (.enum ⟨"RED", rfl⟩) (.string ⟨"RED", .quoted⟩) :=
    .scalar (.inr ⟨"RED", rfl, rfl⟩)
  have size : Value.Rearranged Value.SameText (.int "1") (.int "1") := .scalar (.inl (.int "1"))
  change Value.Rearranged _ _ (.object ([(colorName, _)] ++ (sizeName, _) :: []))
  refine .field (by decide) size ?_
  change Value.Rearranged _ _ (.object ([] ++ (colorName, _) :: []))
  exact .field (by decide) color .empty

theorem argumentKey_findArguments :
    NoRepeatedNames findArguments ∧ NoRepeatedNames rearrangedArguments ∧
      argumentKey findArguments = argumentKey rearrangedArguments := by
  have distinct : NoRepeatedNames findArguments :=
    ⟨by decide, ⟨by decide, trivial, trivial, trivial⟩, trivial, trivial⟩
  have otherDistinct : NoRepeatedNames rearrangedArguments :=
    ⟨by decide, trivial, ⟨by decide, trivial, trivial, trivial⟩, trivial⟩
  refine ⟨distinct, otherDistinct, (argumentKey_eq_iff_rearranges distinct otherDistinct).mpr ?_⟩
  change Value.Rearranged _ _ (.object ([ownerArgument.entry] ++ (whereName, _) :: []))
  refine .field (by decide) rearranged_wordCondition ?_
  change Value.Rearranged _ _ (.object ([] ++ (ownerArgument.name, _) :: []))
  exact .field (by decide) (.scalar (.inl (.variable _))) .empty

/-- The argument of `load(key: 1)`. -/
def numberArguments : List Argument := [⟨⟨"key", rfl⟩, .int "1"⟩]

/-- The argument of `load(key: "1")`. -/
def stringArguments : List Argument := [⟨⟨"key", rfl⟩, .string ⟨"1", .quoted⟩⟩]

/-- A field with the given arguments. -/
def loadField (arguments : List Argument) : Selection :=
  .node (.field none ⟨"load", rfl⟩ arguments []) none

theorem argumentKey_numberArguments : argumentKey numberArguments = argumentKey stringArguments := by
  decide +kernel

theorem not_rearranges_numberArguments :
    ¬ Rearranges Value.SameScalar numberArguments stringArguments := by
  intro rearranged
  change Value.Rearranged _ (.object [(_, .int "1")]) _ at rearranged
  generalize whole : Value.object (stringArguments.map Argument.entry) = other at rearranged
  cases rearranged with
  | scalar same => cases same
  | @field _ _ found _ before after first head rest =>
      have held : found ∈ (stringArguments.map Argument.entry).map Prod.snd := by
        simp [Value.object.inj whole]
      have isString : found = .string ⟨"1", .quoted⟩ := by
        simpa [stringArguments, Argument.entry] using held
      subst isString
      cases head with
      | scalar same => cases same

/-- A number and a string of the same digits have the same key, and only the first is kept. -/
theorem not_argumentKey_eq_iff_sameScalar :
    NoRepeatedNames numberArguments ∧ NoRepeatedNames stringArguments ∧
      ¬ (argumentKey numberArguments = argumentKey stringArguments ↔
        Rearranges Value.SameScalar numberArguments stringArguments) ∧
      mergeSelections [loadField numberArguments, loadField stringArguments] =
        [loadField numberArguments] := by
  have distinct : NoRepeatedNames numberArguments := ⟨by decide, trivial, trivial⟩
  have otherDistinct : NoRepeatedNames stringArguments := ⟨by decide, trivial, trivial⟩
  refine ⟨distinct, otherDistinct, ?_, ?_⟩
  · intro identified
    exact not_rearranges_numberArguments (identified.mp argumentKey_numberArguments)
  · have sameKey : (loadField numberArguments).key = (loadField stringArguments).key := by
      simp only [loadField, Selection.key_node, Head.key, argumentKey_numberArguments]
    have noSet : joinSets [loadField numberArguments, loadField stringArguments] = none :=
      joinSets_eq_none (by simp [loadField, Selection.selections?])
    rw [mergeSelections_eq_groupWith, groupWith, withKey_cons_of_eq sameKey.symm,
      withoutKey_cons_of_eq sameKey.symm]
    simp only [withKey, withoutKey, List.filter_nil, groupWith, mergeGroup, noSet]
    rfl

end Sample

end QueryPrep.Graphql
