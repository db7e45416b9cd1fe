import QueryPrep.Proofs.Merge.CanonicalForms
import QueryPrep.Proofs.Merge.KeyText

/-!
# What an argument key says

The key of a list of arguments can be read back to the sorted list of names and canonical values.
Sorting keeps the arguments of one name in their order. So two lists have the same key exactly if
every name has the same values in both, one by one and up to the way in which they are written.
-/

namespace QueryPrep.Graphql

open QueryPrep.Text

/-- An argument under its name. -/
def Argument.entry (argument : Argument) : Name × Value :=
  (argument.name, argument.value)

/-- The names and the canonical values of arguments, in the order in which a key has them. -/
def canonicalEntries (arguments : List Argument) : List (Name × CanonicalValue) :=
  (sortArguments arguments).map fun argument => (argument.name, argument.value.canonical)

section Sorting

variable {arguments : List Argument}

theorem decide_name_le_trans (first second third : Argument) :
    decide (first.name.text ≤ second.name.text) = true →
      decide (second.name.text ≤ third.name.text) = true →
        decide (first.name.text ≤ third.name.text) = true := by
  simpa using le_trans

theorem decide_name_le_total (first second : Argument) :
    (decide (first.name.text ≤ second.name.text) ||
      decide (second.name.text ≤ first.name.text)) = true := by
  simpa using le_total first.name.text second.name.text

theorem sortedByName_canonicalEntries (arguments : List Argument) :
    SortedByName (canonicalEntries arguments) := by
  have sorted : (sortArguments arguments).Pairwise
      fun first second => decide (first.name.text ≤ second.name.text) = true :=
    List.pairwise_mergeSort decide_name_le_trans decide_name_le_total arguments
  exact List.pairwise_map.mpr (sorted.imp of_decide_eq_true)

/-- Sorting arguments keeps those of one name in their order. -/
theorem filter_sortArguments (name : Name) (arguments : List Argument) :
    (sortArguments arguments).filter (·.name == name) = arguments.filter (·.name == name) := by
  have inOrder : (arguments.filter (·.name == name)).Pairwise
      fun first second => decide (first.name.text ≤ second.name.text) = true := by
    apply List.pairwise_of_forall_mem_list
    intro first firstNamed second secondNamed
    have firstName := (List.mem_filter.mp firstNamed).2
    have secondName := (List.mem_filter.mp secondNamed).2
    rw [beq_iff_eq] at firstName secondName
    simp [firstName, secondName]
  have kept : (arguments.filter (·.name == name)).Sublist (sortArguments arguments) :=
    List.sublist_mergeSort decide_name_le_trans decide_name_le_total inOrder List.filter_sublist
  have keptNamed := kept.filter (·.name == name)
  rw [List.filter_filter] at keptNamed
  simp only [Bool.and_self] at keptNamed
  symm
  apply keptNamed.eq_of_length
  exact (((List.mergeSort_perm arguments _).filter _).length_eq).symm

theorem valuesNamed_canonicalEntries (name : Name) (arguments : List Argument) :
    valuesNamed name (canonicalEntries arguments) =
      (valuesNamed name (arguments.map Argument.entry)).map Value.canonical := by
  have filtered := congrArg (List.map fun argument : Argument => argument.value.canonical)
    (filter_sortArguments name arguments)
  simpa [valuesNamed, canonicalEntries, List.filter_map, Function.comp_def, Argument.entry]
    using filtered

theorem canonicalEntries_eq_iff {first second : List Argument} :
    canonicalEntries first = canonicalEntries second ↔
      ∀ name, (valuesNamed name (first.map Argument.entry)).map Value.canonical =
        (valuesNamed name (second.map Argument.entry)).map Value.canonical := by
  simp only [← valuesNamed_canonicalEntries]
  constructor
  · intro same name
    rw [same]
  · exact (sortedByName_canonicalEntries first).eq_of_valuesNamed_eq
      (sortedByName_canonicalEntries second)

theorem canonicalEntries_eq_nil_iff : canonicalEntries arguments = [] ↔ arguments = [] := by
  rw [canonicalEntries, List.map_eq_nil_iff, ← List.length_eq_zero_iff, sortArguments,
    List.length_mergeSort, List.length_eq_zero_iff]

end Sorting

theorem toList_argumentKey_of_ne_nil {arguments : List Argument} (present : arguments ≠ []) :
    (argumentKey arguments).toList =
      '[' :: ([','].intercalate ((canonicalEntries arguments).map CanonicalValue.writeArgument) ++
        [']']) := by
  rw [argumentKey, if_neg (by simpa using present), String.toList_ofList,
    CanonicalValue.writeList, canonicalEntries, List.map_map]
  rfl

theorem argumentKey_eq_empty_iff {arguments : List Argument} :
    argumentKey arguments = "" ↔ arguments = [] := by
  constructor
  · intro empty
    by_contra present
    have characters := toList_argumentKey_of_ne_nil present
    simp [empty] at characters
  · rintro rfl
    rfl

theorem canonicalEntries_eq_of_argumentKey_eq {first second : List Argument}
    (present : first ≠ []) (otherPresent : second ≠ [])
    (same : argumentKey first = argumentKey second) :
    canonicalEntries first = canonicalEntries second := by
  have separated : SelfDelimiting (fun entries =>
      [','].intercalate (entries.map CanonicalValue.writeArgument) ++ [']'])
      (canonicalEntries first) :=
    .separated (fun argument _ => CanonicalValue.selfDelimiting_writeArgument argument)
      CanonicalValue.neverOpensWith_writeArgument (by decide)
  apply (separated.opened '[').eq_of_write_eq
  rw [← toList_argumentKey_of_ne_nil present, ← toList_argumentKey_of_ne_nil otherPresent, same]

/-- Keys tell the canonical entries of arguments apart. -/
theorem argumentKey_eq_iff_canonicalEntries_eq {first second : List Argument} :
    argumentKey first = argumentKey second ↔ canonicalEntries first = canonicalEntries second := by
  by_cases present : first = []
  · subst first
    rw [argumentKey_eq_empty_iff.mpr rfl, canonicalEntries_eq_nil_iff.mpr rfl, @eq_comm _ "",
      @eq_comm _ [], argumentKey_eq_empty_iff, canonicalEntries_eq_nil_iff]
  · by_cases otherPresent : second = []
    · subst second
      rw [argumentKey_eq_empty_iff.mpr rfl, argumentKey_eq_empty_iff,
        canonicalEntries_eq_nil_iff.mpr rfl, canonicalEntries_eq_nil_iff]
    · constructor
      · exact canonicalEntries_eq_of_argumentKey_eq present otherPresent
      · intro same
        apply String.toList_inj.mp
        rw [toList_argumentKey_of_ne_nil present, toList_argumentKey_of_ne_nil otherPresent, same]

/--
Two lists of arguments have the same key exactly if every name has canonically equal values in both,
one by one and in the order in which they stand.
-/
theorem argumentKey_eq_iff (first second : List Argument) :
    argumentKey first = argumentKey second ↔
      ∀ name, List.Forall₂ Value.CanonicallyEqual
        (valuesNamed name (first.map Argument.entry))
        (valuesNamed name (second.map Argument.entry)) := by
  rw [argumentKey_eq_iff_canonicalEntries_eq, canonicalEntries_eq_iff]
  apply forall_congr'
  intro name
  rw [← List.forall₂_eq_eq_eq, List.forall₂_map_left_iff, List.forall₂_map_right_iff]
  have decides : (fun value other : Value => value.canonical = other.canonical) =
      Value.CanonicallyEqual := by
    funext value other
    exact propext Value.canonicallyEqual_iff.symm
  rw [decides]

end QueryPrep.Graphql
