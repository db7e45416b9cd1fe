import QueryPrep.Merge.Canonical
import Mathlib.Data.List.Forall2
import Mathlib.Data.List.Induction
import Mathlib.Data.String.Basic

/-!
# Values that come to the same

Two values are canonically equal if they ask for the same thing once the ways of writing it are
left out: the kind of a number, a word or a string, the order of the fields of an object and all
values of a field but the last. The relation is stated on the values as they are written. The main
result is that canonical forms decide it.

Objects are compared name by name. Sorting the fields loses nothing of this, because a list that is
sorted by name is known once the values of every name are known.
-/

namespace QueryPrep.Graphql

universe u

/-- The values that stand under a name, in their order. -/
def valuesNamed {Item : Type u} (name : Name) (entries : List (Name × Item)) : List Item :=
  (entries.filter (·.1 == name)).map Prod.snd

/-- Entries with their names in order; a name may come several times. -/
def SortedByName {Item : Type u} (entries : List (Name × Item)) : Prop :=
  entries.Pairwise fun first second => first.1.text ≤ second.1.text

section Named

variable {Item : Type u} {name : Name} {entry later : Name × Item}
variable {entries others : List (Name × Item)}

@[simp]
theorem valuesNamed_nil : valuesNamed name ([] : List (Name × Item)) = [] := rfl

theorem valuesNamed_cons_of_eq (same : entry.1 = name) :
    valuesNamed name (entry :: entries) = entry.2 :: valuesNamed name entries := by
  simp [valuesNamed, same]

theorem valuesNamed_cons_self (value : Item) :
    valuesNamed name ((name, value) :: entries) = value :: valuesNamed name entries :=
  valuesNamed_cons_of_eq rfl

theorem valuesNamed_cons_of_ne (differs : entry.1 ≠ name) :
    valuesNamed name (entry :: entries) = valuesNamed name entries := by
  simp [valuesNamed, differs]

theorem valuesNamed_append :
    valuesNamed name (entries ++ others) = valuesNamed name entries ++ valuesNamed name others := by
  simp [valuesNamed]

theorem valuesNamed_map {Other : Type u} (change : Item → Other) :
    valuesNamed name (entries.map fun entry => (entry.1, change entry.2)) =
      (valuesNamed name entries).map change := by
  simp [valuesNamed, List.filter_map, Function.comp_def]

theorem mem_valuesNamed_iff {value : Item} :
    value ∈ valuesNamed name entries ↔ (name, value) ∈ entries := by
  simp [valuesNamed]

theorem valuesNamed_eq_nil_iff : valuesNamed name entries = [] ↔ name ∉ entries.map Prod.fst := by
  simp [List.eq_nil_iff_forall_not_mem, mem_valuesNamed_iff]

theorem isSome_getLast?_valuesNamed_iff :
    (valuesNamed name entries).getLast?.isSome ↔ name ∈ entries.map Prod.fst := by
  rw [Option.isSome_iff_ne_none, ne_eq, List.getLast?_eq_none_iff, valuesNamed_eq_nil_iff, not_not]

theorem le_of_mem_cons (sorted : SortedByName (entry :: entries))
    (member : later ∈ entry :: entries) : entry.1.text ≤ later.1.text := by
  rcases List.mem_cons.mp member with rfl | member
  · exact le_refl _
  · exact (List.pairwise_cons.mp sorted).1 later member

theorem SortedByName.le_of_valuesNamed_eq (sorted : SortedByName (entry :: entries))
    (same : ∀ name, valuesNamed name (entry :: entries) = valuesNamed name others)
    (member : later ∈ others) : entry.1.text ≤ later.1.text := by
  have held : (later.1, later.2) ∈ entry :: entries := by
    rw [← mem_valuesNamed_iff, same, mem_valuesNamed_iff]
    exact member
  exact le_of_mem_cons sorted held

/-- A list that is sorted by name is known once the values of every name are known. -/
theorem SortedByName.eq_of_valuesNamed_eq (sorted : SortedByName entries)
    (otherSorted : SortedByName others)
    (same : ∀ name, valuesNamed name entries = valuesNamed name others) : entries = others := by
  induction entries generalizing others with
  | nil =>
      cases others with
      | nil => rfl
      | cons other others =>
          have empty := same other.1
          simp [valuesNamed_cons_of_eq] at empty
  | cons entry entries ih =>
      cases others with
      | nil =>
          have empty := same entry.1
          simp [valuesNamed_cons_of_eq] at empty
      | cons other others =>
          -- The first name of each list comes in the other, so neither is before the other.
          have sameName : entry.1 = other.1 := by
            apply Name.ext
            apply le_antisymm
            · exact sorted.le_of_valuesNamed_eq same List.mem_cons_self
            · exact otherSorted.le_of_valuesNamed_eq (fun name => (same name).symm)
                List.mem_cons_self
          have first := same entry.1
          rw [valuesNamed_cons_of_eq rfl, valuesNamed_cons_of_eq sameName.symm,
            List.cons.injEq] at first
          rw [Prod.ext sameName first.1, ih (List.pairwise_cons.mp sorted).2
            (List.pairwise_cons.mp otherSorted).2]
          intro name
          by_cases isFirst : entry.1 = name
          · rw [← isFirst]
            exact first.2
          · have rest := same name
            rwa [valuesNamed_cons_of_ne isFirst,
              valuesNamed_cons_of_ne (by rwa [← sameName])] at rest

end Named

namespace CanonicalValue

variable {name : Name} {field : Name × CanonicalValue}
variable {fields others : List (Name × CanonicalValue)}

/-- Fields in the order of their names, none of which comes twice. -/
def StrictlySorted (fields : List (Name × CanonicalValue)) : Prop :=
  fields.Pairwise fun first second => first.1.text < second.1.text

theorem StrictlySorted.sortedByName (sorted : StrictlySorted fields) : SortedByName fields :=
  sorted.imp le_of_lt

theorem valuesNamed_eq_nil_of_lt (before : ∀ later ∈ fields, name.text < later.1.text) :
    valuesNamed name fields = [] := by
  rw [valuesNamed_eq_nil_iff, List.mem_map]
  rintro ⟨later, member, rfl⟩
  exact lt_irrefl _ (before later member)

theorem eq_or_mem_of_mem_putField {later : Name × CanonicalValue}
    (member : later ∈ putField field fields) : later = field ∨ later ∈ fields := by
  fun_induction putField field fields with
  | case1 => simpa using member
  | case2 first rest same =>
      rw [List.mem_cons] at member
      exact member.imp_right (List.mem_cons_of_mem _)
  | case3 first rest differs before => simpa using member
  | case4 first rest differs notBefore ih =>
      rcases List.mem_cons.mp member with rfl | member
      · exact .inr List.mem_cons_self
      · exact (ih member).imp_right (List.mem_cons_of_mem _)

theorem strictlySorted_putField (sorted : StrictlySorted fields) :
    StrictlySorted (putField field fields) := by
  fun_induction putField field fields with
  | case1 => exact List.pairwise_singleton _ _
  | case2 first rest same =>
      rcases List.pairwise_cons.mp sorted with ⟨firstBefore, restSorted⟩
      rw [← same] at firstBefore
      exact List.pairwise_cons.mpr ⟨firstBefore, restSorted⟩
  | case3 first rest differs before =>
      refine List.pairwise_cons.mpr ⟨?_, sorted⟩
      intro later member
      rcases List.mem_cons.mp member with rfl | member
      · exact before
      · exact before.trans ((List.pairwise_cons.mp sorted).1 later member)
  | case4 first rest differs notBefore ih =>
      rcases List.pairwise_cons.mp sorted with ⟨firstBefore, restSorted⟩
      refine List.pairwise_cons.mpr ⟨?_, ih restSorted⟩
      intro later member
      rcases eq_or_mem_of_mem_putField member with rfl | member
      · exact lt_of_le_of_ne (not_lt.mp notBefore) fun same => differs (Name.ext same).symm
      · exact firstBefore later member

/-- A field that is put among sorted ones takes the place of the one with its name. -/
theorem valuesNamed_putField (sorted : StrictlySorted fields) :
    valuesNamed name (putField field fields) =
      if field.1 = name then [field.2] else valuesNamed name fields := by
  fun_induction putField field fields with
  | case1 =>
      split
      case isTrue same => rw [valuesNamed_cons_of_eq same, valuesNamed_nil]
      case isFalse differs => rw [valuesNamed_cons_of_ne differs]
  | case2 first rest same =>
      have firstBefore := (List.pairwise_cons.mp sorted).1
      split
      case isTrue isName =>
        rw [← same, isName] at firstBefore
        rw [valuesNamed_cons_of_eq isName, valuesNamed_eq_nil_of_lt firstBefore]
      case isFalse differs =>
        rw [valuesNamed_cons_of_ne differs, valuesNamed_cons_of_ne (by rwa [← same])]
  | case3 first rest differs before =>
      split
      case isTrue isName =>
        rw [valuesNamed_cons_of_eq isName, valuesNamed_eq_nil_of_lt]
        intro later member
        rw [← isName]
        exact lt_of_lt_of_le before (le_of_mem_cons sorted.sortedByName member)
      case isFalse other => rw [valuesNamed_cons_of_ne other]
  | case4 first rest differs notBefore ih =>
      have restPut := ih (List.pairwise_cons.mp sorted).2
      by_cases isFirst : first.1 = name
      · have other : field.1 ≠ name := by rwa [← isFirst]
        rw [if_neg other] at restPut ⊢
        rw [valuesNamed_cons_of_eq isFirst, valuesNamed_cons_of_eq isFirst, restPut]
      · rw [valuesNamed_cons_of_ne isFirst, valuesNamed_cons_of_ne isFirst, restPut]

theorem sortFields_append_singleton (fields : List (Name × CanonicalValue))
    (field : Name × CanonicalValue) :
    sortFields (fields ++ [field]) = putField field (sortFields fields) := by
  simp [sortFields]

theorem strictlySorted_sortFields (fields : List (Name × CanonicalValue)) :
    StrictlySorted (sortFields fields) := by
  induction fields using List.reverseRecOn with
  | nil => exact List.Pairwise.nil
  | append_singleton fields field ih =>
      rw [sortFields_append_singleton]
      exact strictlySorted_putField ih

/-- Of every name, the last value is kept. -/
theorem valuesNamed_sortFields (name : Name) (fields : List (Name × CanonicalValue)) :
    valuesNamed name (sortFields fields) = (valuesNamed name fields).getLast?.toList := by
  induction fields using List.reverseRecOn with
  | nil => rfl
  | append_singleton fields field ih =>
      rw [sortFields_append_singleton, valuesNamed_putField (strictlySorted_sortFields fields),
        valuesNamed_append, ih]
      split
      case isTrue same => simp [valuesNamed_cons_of_eq same]
      case isFalse differs => simp [valuesNamed_cons_of_ne differs]

theorem sortFields_eq_iff :
    sortFields fields = sortFields others ↔
      ∀ name, (valuesNamed name fields).getLast? = (valuesNamed name others).getLast? := by
  constructor
  · intro same name
    have sameValues := congrArg (valuesNamed name) same
    rw [valuesNamed_sortFields, valuesNamed_sortFields] at sameValues
    simpa using congrArg List.head? sameValues
  · intro same
    apply (strictlySorted_sortFields fields).sortedByName.eq_of_valuesNamed_eq
      (strictlySorted_sortFields others).sortedByName
    intro name
    rw [valuesNamed_sortFields, valuesNamed_sortFields, same]

end CanonicalValue

namespace Value

/-- The text of a number, a word or a string, without its kind. -/
def literalText? : Value → Option String
  | .int text => some text
  | .float text => some text
  | .string literal => some literal.value
  | .enum name => some name.text
  | _ => none

/--
Two values that ask for the same thing. Numbers, words and strings are compared by their text, lists
element by element, and objects by the last value of each field.
-/
inductive CanonicallyEqual : Value → Value → Prop
  | boolean (value : Bool) : CanonicallyEqual (.boolean value) (.boolean value)
  | null : CanonicallyEqual .null .null
  | literal {first second : Value} {text : String} (firstText : first.literalText? = some text)
      (secondText : second.literalText? = some text) : CanonicallyEqual first second
  | variable (name : Name) : CanonicallyEqual (.variable name) (.variable name)
  | nil : CanonicallyEqual (.list []) (.list [])
  | cons {value other : Value} {values others : List Value} (head : CanonicallyEqual value other)
      (tail : CanonicallyEqual (.list values) (.list others)) :
      CanonicallyEqual (.list (value :: values)) (.list (other :: others))
  | object {fields others : List (Name × Value)}
      (sameNames : ∀ name, name ∈ fields.map Prod.fst ↔ name ∈ others.map Prod.fst)
      (sameValues : ∀ name value other, (valuesNamed name fields).getLast? = some value →
        (valuesNamed name others).getLast? = some other → CanonicallyEqual value other) :
      CanonicallyEqual (.object fields) (.object others)

section Decides

variable {value other : Value} {values others : List Value} {text : String}

theorem canonical_eq_text_iff : value.canonical = .text text ↔ value.literalText? = some text := by
  cases value <;> simp [canonical, literalText?]

theorem canonical_object_eq_iff {fields others : List (Name × Value)} :
    (object fields).canonical = (object others).canonical ↔
      ∀ name, (valuesNamed name fields).getLast?.map canonical =
        (valuesNamed name others).getLast?.map canonical := by
  simp only [canonical, CanonicalValue.object.injEq, CanonicalValue.sortFields_eq_iff,
    canonicalFields_eq_map, valuesNamed_map, List.getLast?_map]

theorem CanonicallyEqual.canonical_eq (same : CanonicallyEqual value other) :
    value.canonical = other.canonical := by
  induction same with
  | literal firstText secondText =>
      rw [canonical_eq_text_iff.mpr firstText, canonical_eq_text_iff.mpr secondText]
  | cons _ _ headSame tailSame =>
      simp only [canonical, CanonicalValue.list.injEq] at tailSame
      simp only [canonical, canonicalEach, headSame, tailSame]
  | @object fields others sameNames _ sameValues =>
      rw [canonical_object_eq_iff]
      intro name
      have bothHeld := sameNames name
      rw [← isSome_getLast?_valuesNamed_iff, ← isSome_getLast?_valuesNamed_iff] at bothHeld
      cases last : (valuesNamed name fields).getLast? with
      | none => cases otherLast : (valuesNamed name others).getLast? <;> simp_all
      | some value =>
          cases otherLast : (valuesNamed name others).getLast? with
          | none => simp_all
          | some other => simp [sameValues name value other last otherLast]
  | _ => rfl

theorem canonicallyEqual_object {fields others : List (Name × Value)}
    (each : ∀ field ∈ fields, ∀ other : Value, field.2.canonical = other.canonical →
      CanonicallyEqual field.2 other)
    (same : (object fields).canonical = (object others).canonical) :
    CanonicallyEqual (.object fields) (.object others) := by
  rw [canonical_object_eq_iff] at same
  apply CanonicallyEqual.object
  · intro name
    rw [← isSome_getLast?_valuesNamed_iff, ← isSome_getLast?_valuesNamed_iff]
    have bothHeld := congrArg Option.isSome (same name)
    rw [Option.isSome_map, Option.isSome_map] at bothHeld
    rw [bothHeld]
  · intro name value other last otherLast
    have sameLast := same name
    rw [last, otherLast, Option.map_some, Option.map_some, Option.some.injEq] at sameLast
    exact each (name, value) (mem_valuesNamed_iff.mp (List.mem_of_getLast? last)) other sameLast

mutual

theorem canonicallyEqual_of_canonical_eq : (value other : Value) →
    value.canonical = other.canonical → CanonicallyEqual value other
  | .variable _, .variable _, same => by
      rw [canonical, canonical, CanonicalValue.variable.injEq] at same
      rw [same]
      exact .variable _
  | .boolean _, .boolean _, same => by
      rw [canonical, canonical, CanonicalValue.boolean.injEq] at same
      rw [same]
      exact .boolean _
  | .null, .null, _ => .null
  | .int _, _, same => .literal rfl (canonical_eq_text_iff.mp same.symm)
  | .float _, _, same => .literal rfl (canonical_eq_text_iff.mp same.symm)
  | .string _, _, same => .literal rfl (canonical_eq_text_iff.mp same.symm)
  | .enum _, _, same => .literal rfl (canonical_eq_text_iff.mp same.symm)
  | .list values, .list others, same => by
      rw [canonical, canonical, CanonicalValue.list.injEq] at same
      exact canonicallyEqual_of_canonicalEach_eq values others same
  | .object fields, .object others, same =>
      canonicallyEqual_object (canonicallyEqual_of_mem_fields fields) same

theorem canonicallyEqual_of_canonicalEach_eq : (values others : List Value) →
    canonicalEach values = canonicalEach others → CanonicallyEqual (.list values) (.list others)
  | [], [], _ => .nil
  | value :: values, other :: others, same => by
      rw [canonicalEach, canonicalEach, List.cons.injEq] at same
      exact .cons (canonicallyEqual_of_canonical_eq value other same.1)
        (canonicallyEqual_of_canonicalEach_eq values others same.2)

theorem canonicallyEqual_of_mem_fields : (fields : List (Name × Value)) →
    ∀ field ∈ fields, ∀ other : Value, field.2.canonical = other.canonical →
      CanonicallyEqual field.2 other
  | [] => by simp
  | (_, value) :: rest => List.forall_mem_cons.mpr
      ⟨canonicallyEqual_of_canonical_eq value, canonicallyEqual_of_mem_fields rest⟩

end

/-- Values come to the same exactly if they have the same canonical form. -/
theorem canonicallyEqual_iff : CanonicallyEqual value other ↔ value.canonical = other.canonical :=
  ⟨CanonicallyEqual.canonical_eq, canonicallyEqual_of_canonical_eq value other⟩

end Decides

end Value

end QueryPrep.Graphql
