import QueryPrep.Proofs.Source.Grouping
import Mathlib.Data.List.Perm.Basic

/-!
# Files partition records

Every record is listed in one file, the one that it is for, and as often as it occurs. Since the
files are in the order of their names, they are determined by what each of them lists, which depends
on the records of the file alone. So a record more changes no file but its own.
-/

namespace QueryPrep.Source

section Contents

variable {records : List FileRecord} {file : MergedFile} {filename : String}

/-- The records of a file in the order in which they are listed. -/
def recordsOf (records : List FileRecord) (filename : String) : List FileRecord :=
  (records.filter (·.filename = filename)).mergeSort FileRecord.le

/-- The file that lists the records. -/
def listing (filename : String) (records : List FileRecord) : MergedFile :=
  ⟨filename, renderContents (records.map (·.content))⟩

theorem perm_recordsOf (records : List FileRecord) (filename : String) :
    (recordsOf records filename).Perm (records.filter (·.filename = filename)) :=
  List.mergeSort_perm _ _

theorem filename_of_mem_recordsOf {record : FileRecord}
    (member : record ∈ recordsOf records filename) : record.filename = filename := by
  rw [(perm_recordsOf records filename).mem_iff, List.mem_filter] at member
  exact of_decide_eq_true member.2

theorem pairwise_precedes_recordsOf (records : List FileRecord) (filename : String) :
    (recordsOf records filename).Pairwise FileRecord.Precedes := by
  apply List.Pairwise.imp_of_mem _ (FileRecord.pairwise_mergeSort_le _)
  intro first second firstMember secondMember before
  have sameFile := (filename_of_mem_recordsOf firstMember).trans
    (filename_of_mem_recordsOf secondMember).symm
  exact FileRecord.precedes_of_le sameFile before

/-- The names of the files, each of them once. -/
def filenames (records : List FileRecord) : List String :=
  (groupRecords (records.mergeSort FileRecord.le)).map (·.1)

theorem pairwise_filenames (records : List FileRecord) :
    (filenames records).Pairwise (· < ·) :=
  (filesInOrder_mergeSort records).pairwise_lt

theorem mem_filenames_iff :
    filename ∈ filenames records ↔ filename ∈ records.map (·.filename) := by
  rw [filenames, mem_map_groupRecords_iff]
  exact ((List.mergeSort_perm records _).map _).mem_iff

theorem mergeFileRecords_eq_map (records : List FileRecord) :
    mergeFileRecords records =
      (filenames records).map fun filename => listing filename (recordsOf records filename) := by
  rw [mergeFileRecords, filenames, List.map_map]
  apply List.map_congr_left
  intro group member
  have contents := (filesInOrder_mergeSort records).contents_eq member
  rw [FileRecord.filter_mergeSort] at contents
  rw [contents]
  rfl

theorem mem_mergeFileRecords_iff :
    file ∈ mergeFileRecords records ↔
      file.filename ∈ records.map (·.filename) ∧
        file = listing file.filename (recordsOf records file.filename) := by
  rw [mergeFileRecords_eq_map, List.mem_map]
  constructor
  · rintro ⟨filename, member, rfl⟩
    exact ⟨mem_filenames_iff.mp member, rfl⟩
  · rintro ⟨member, same⟩
    exact ⟨file.filename, mem_filenames_iff.mpr member, same.symm⟩

theorem pairwise_mergeFileRecords (records : List FileRecord) :
    (mergeFileRecords records).Pairwise fun first second => first.filename < second.filename := by
  rw [mergeFileRecords_eq_map, List.pairwise_map]
  exact pairwise_filenames records

end Contents

section Independence

variable {records : List FileRecord} {filename other : String}

/-- Files in the order of their names are determined by which files there are. -/
theorem eq_of_mem_iff {files others : List MergedFile}
    (ordered : files.Pairwise fun first second => first.filename < second.filename)
    (othersOrdered : others.Pairwise fun first second => first.filename < second.filename)
    (same : ∀ file, file ∈ files ↔ file ∈ others) : files = others := by
  have nodup : files.Nodup := ordered.imp fun before same => (same ▸ before).false
  have othersNodup : others.Nodup := othersOrdered.imp fun before same => (same ▸ before).false
  apply List.Perm.eq_of_pairwise _ ordered othersOrdered
  · exact (List.perm_ext_iff_of_nodup nodup othersNodup).mpr same
  · intro first second _ _ before behind
    exact absurd (before.trans behind) (lt_irrefl _)

theorem filter_filter_ne (records : List FileRecord) (different : other ≠ filename) :
    (records.filter (·.filename ≠ filename)).filter (·.filename = other) =
      records.filter (·.filename = other) := by
  rw [List.filter_filter]
  apply List.filter_congr
  intro record _
  by_cases same : record.filename = other
  · simp [same, different]
  · simp [same]

theorem recordsOf_filter_ne (records : List FileRecord) (different : other ≠ filename) :
    recordsOf (records.filter (·.filename ≠ filename)) other = recordsOf records other := by
  rw [recordsOf, recordsOf, filter_filter_ne records different]

/-- Leaving out a file is leaving out its records. -/
theorem mergeFileRecords_filter_ne (records : List FileRecord) (filename : String) :
    mergeFileRecords (records.filter (·.filename ≠ filename)) =
      (mergeFileRecords records).filter (·.filename ≠ filename) := by
  apply eq_of_mem_iff (pairwise_mergeFileRecords _) ((pairwise_mergeFileRecords records).filter _)
  intro file
  rw [List.mem_filter, mem_mergeFileRecords_iff, mem_mergeFileRecords_iff]
  by_cases different : file.filename = filename
  · simp [different]
  · rw [recordsOf_filter_ne records different]
    have kept : file.filename ∈ (records.filter (·.filename ≠ filename)).map (·.filename) ↔
        file.filename ∈ records.map (·.filename) := by
      simp only [List.mem_map, List.mem_filter]
      constructor
      · rintro ⟨record, ⟨member, _⟩, same⟩
        exact ⟨record, member, same⟩
      · rintro ⟨record, member, same⟩
        exact ⟨record, ⟨member, by simpa [same] using different⟩, same⟩
    rw [kept]
    simp [different]

theorem filter_insertIdx_of_neg {keep : FileRecord → Bool} {record : FileRecord}
    (dropped : keep record = false) (position : Nat) (records : List FileRecord) :
    (records.insertIdx position record).filter keep = records.filter keep := by
  induction records generalizing position with
  | nil => cases position <;> simp [dropped]
  | cons first rest ih =>
      cases position with
      | zero => simp [dropped]
      | succ position => simp [List.filter_cons, ih]

end Independence

section Partition

variable {records : List FileRecord} {groups : List (String × List FileRecord)}

/--
The groups have the names of the files that there are records for, in order. Each has the records of
its file, as often as they occur, queries before fragments and each kind in the order of contents.
-/
structure Partitions (records : List FileRecord) (groups : List (String × List FileRecord)) :
    Prop where
  increasing : (groups.map (·.1)).Pairwise (· < ·)
  mem_iff : ∀ filename, filename ∈ groups.map (·.1) ↔ filename ∈ records.map (·.filename)
  own : ∀ group ∈ groups, group.2.Perm (records.filter (·.filename = group.1))
  ordered : ∀ group ∈ groups, group.2.Pairwise FileRecord.Precedes

/-- Records that are taken apart by file and put together again. -/
theorem flatMap_filter_perm {names : List String} (distinct : names.Nodup)
    (covered : ∀ record ∈ records, record.filename ∈ names) :
    (names.flatMap fun name => records.filter (·.filename = name)).Perm records := by
  induction names generalizing records with
  | nil =>
      have none : records = [] := List.eq_nil_iff_forall_not_mem.mpr fun record member =>
        List.not_mem_nil (covered record member)
      rw [none]
      rfl
  | cons name names ih =>
      rcases List.nodup_cons.mp distinct with ⟨fresh, restDistinct⟩
      have apart : ∀ other ∈ names, records.filter (·.filename = other) =
          (records.filter (·.filename ≠ name)).filter (·.filename = other) := by
        intro other member
        have different : other ≠ name := fun same => fresh (same ▸ member)
        exact (filter_filter_ne records different).symm
      have restCovered : ∀ record ∈ records.filter (·.filename ≠ name),
          record.filename ∈ names := by
        intro record member
        rw [List.mem_filter, decide_eq_true_eq] at member
        exact (List.mem_cons.mp (covered record member.1)).resolve_left member.2
      rw [List.flatMap_cons, List.flatMap_congr apart]
      have rest := (ih restDistinct restCovered).append_left (records.filter (·.filename = name))
      apply rest.trans
      simpa using List.filter_append_perm (·.filename = name) records

theorem Partitions.flatMap_perm (partitions : Partitions records groups) :
    (groups.flatMap (·.2)).Perm records := by
  have names : (groups.map (·.1)).Nodup := partitions.increasing.imp ne_of_lt
  have covered : ∀ record ∈ records, record.filename ∈ groups.map (·.1) := by
    intro record member
    exact (partitions.mem_iff _).mpr (List.mem_map_of_mem member)
  have whole := flatMap_filter_perm names covered
  rw [List.flatMap_map] at whole
  exact (List.Perm.flatMap_left groups partitions.own).trans whole

theorem partitions_recordsOf (records : List FileRecord) :
    Partitions records
      ((filenames records).map fun filename => (filename, recordsOf records filename)) := by
  have names : ((filenames records).map fun filename =>
      (filename, recordsOf records filename)).map (·.1) = filenames records := by
    simp [Function.comp_def]
  constructor
  case increasing =>
    rw [names]
    exact pairwise_filenames records
  case mem_iff =>
    intro filename
    rw [names]
    exact mem_filenames_iff
  case own =>
    intro group member
    rcases List.mem_map.mp member with ⟨filename, _, rfl⟩
    exact perm_recordsOf records filename
  case ordered =>
    intro group member
    rcases List.mem_map.mp member with ⟨filename, _, rfl⟩
    exact pairwise_precedes_recordsOf records filename

/--
Files partition the records that they are made from: there is one file for each name, it lists the
records with that name in full, and all files together list all records. A record that is added
anywhere changes no file with another name.
-/
theorem mergeFileRecords_partition (records : List FileRecord) :
    (∃ groups, Partitions records groups ∧ (groups.flatMap (·.2)).Perm records ∧
      mergeFileRecords records = groups.map fun group =>
        ⟨group.1, String.intercalate "\n"
          (group.2.map fun record => "graphql`" ++ record.content ++ "`")⟩) ∧
    ∀ position record,
      (mergeFileRecords (records.insertIdx position record)).filter
          (·.filename ≠ record.filename) =
        (mergeFileRecords records).filter (·.filename ≠ record.filename) := by
  constructor
  · have partitions := partitions_recordsOf records
    refine ⟨_, partitions, partitions.flatMap_perm, ?_⟩
    rw [mergeFileRecords_eq_map, List.map_map]
    apply List.map_congr_left
    intro filename _
    simp only [listing, renderContents, List.map_map]
    rfl
  · intro position record
    have absent : decide (record.filename ≠ record.filename) = false := by simp
    rw [← mergeFileRecords_filter_ne, ← mergeFileRecords_filter_ne,
      filter_insertIdx_of_neg absent]

end Partition

end QueryPrep.Source
