import QueryPrep.Files.Path
import QueryPrep.Proofs.Source.Partition
import QueryPrep.Proofs.Source.Resplitting

/-!
# Names of source files

The name of a definition is read character by character, so it holds letters, digits and
underscores only, whatever else is in the text. The name of its file is a part of that name with the
extension behind it. Part of it may be nothing at all, yet no file name leads to a directory.
-/

namespace QueryPrep.Source

open QueryPrep.Files QueryPrep.Graphql

/-- Any number of name characters, possibly none, and the extension. -/
def IsFilename (extension filename : String) : Prop :=
  ∃ base : List Char, (∀ character ∈ base, isNameContinue character = true) ∧
    filename = String.ofList base ++ extension

variable {kind : DefinitionKind} {name : List Char} {character : Char} {extension text : String}
variable {definition : RawDefinition} {definitions : List RawDefinition} {file : MergedFile}

theorem mem_of_mem_baseName (member : character ∈ baseName kind name) : character ∈ name := by
  unfold baseName at member
  split at member
  case h_1 =>
    split at member
    case isTrue => exact List.mem_of_mem_take member
    case isFalse => exact member
  case h_2 => exact (List.takeWhile_prefix _).subset member

theorem Standalone.isFilename (standalone : Standalone definition) (extension : String) :
    IsFilename extension (definition.toRecord extension).filename := by
  rcases standalone with ⟨blanks, header, inner, layout⟩
  refine ⟨baseName definition.kind definition.name.toList, ?_, rfl⟩
  intro character member
  exact layout.named.nameLike character (mem_of_mem_baseName member)

theorem isFilename_of_mem_groupDefinitions (split : splitDefinitions text = .ok definitions)
    (member : file ∈ groupDefinitions extension definitions) :
    IsFilename extension file.filename := by
  rcases List.mem_map.mp (mem_mergeFileRecords_iff.mp member).1 with ⟨record, inRecords, same⟩
  rcases List.mem_map.mp inRecords with ⟨definition, found, rfl⟩
  rw [← same]
  exact (standalone_of_splitDefinitions split definition found).isFilename extension

/-- A text without slashes is one piece. -/
theorem splitSlashes_of_not_mem {text : List Char} (without : '/' ∉ text) :
    splitSlashes text = [text] := by
  induction text with
  | nil => rfl
  | cons character rest ih =>
      rw [List.mem_cons, not_or] at without
      rw [splitSlashes, if_neg (Ne.symm without.1), ih without.2]

theorem isNameContinue_slash : isNameContinue '/' = false := by decide

theorem IsFilename.length_le {filename : String} (isFilename : IsFilename extension filename) :
    extension.length ≤ filename.length := by
  rcases isFilename with ⟨base, _, rfl⟩
  rw [String.length_append]
  exact Nat.le_add_left _ _

/-- With an extension of some length, a file name is one step, and none that says nothing. -/
theorem IsFilename.steps_eq {filename : String} (isFilename : IsFilename extension filename)
    (without : '/' ∉ extension.toList) (long : 2 < extension.length) :
    steps filename = [filename] := by
  have longer := long.trans_le isFilename.length_le
  have single : '/' ∉ filename.toList := by
    rcases isFilename with ⟨base, nameLike, rfl⟩
    rw [String.toList_append, String.toList_ofList, List.mem_append, not_or]
    refine ⟨?_, without⟩
    intro member
    simpa [isNameContinue_slash] using nameLike '/' member
  have telling : isIdle filename.toList = false := by
    rw [← String.length_toList] at longer
    rw [isIdle, Bool.or_eq_false_iff]
    constructor
    · rw [List.isEmpty_eq_false_iff]
      rintro empty
      simp [empty] at longer
    · rw [beq_eq_false_iff_ne]
      rintro dot
      simp [dot] at longer
  rw [steps, splitSlashes_of_not_mem single, List.filter_cons_of_pos (by simp [telling])]
  simp

theorem IsFilename.ne_dots {filename : String} (isFilename : IsFilename extension filename)
    (long : 2 < extension.length) : filename ≠ ".." := by
  rintro rfl
  exact absurd (long.trans_le isFilename.length_le) (by decide)

theorem pairwise_filename_groupDefinitions (extension : String)
    (definitions : List RawDefinition) :
    ((groupDefinitions extension definitions).map (·.filename)).Pairwise (· < ·) :=
  List.pairwise_map.mpr (pairwise_mergeFileRecords _)

end QueryPrep.Source
