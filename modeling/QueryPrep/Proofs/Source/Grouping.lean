import QueryPrep.Source.File
import Mathlib.Data.Prod.Lex
import Mathlib.Data.String.Basic

/-!
# Records in file order

Records are ordered by file first, so the records of a file are neighbours once they are sorted.
Grouping neighbours then puts all of them into one group, and no two groups are for the same file.
The order tells any two records apart, so records have one order only, wherever they came from.
-/

namespace QueryPrep.Source

theorem DefinitionKind.rank_injective : Function.Injective DefinitionKind.rank := by
  intro kind other same
  cases kind <;> cases other <;> first | rfl | cases same

namespace FileRecord

variable {first second third : FileRecord}

/-- What records are ordered by. -/
def key (record : FileRecord) : String ×ₗ ℕ ×ₗ String :=
  toLex (record.filename, toLex (record.kind.rank, record.content))

theorem le_iff_key_le : first.le second = true ↔ first.key ≤ second.key := by
  unfold le key
  rw [Prod.Lex.toLex_le_toLex, Prod.Lex.toLex_le_toLex]
  split
  case isFalse other => simp [other]
  case isTrue same =>
    split
    case isTrue sameKind => simp [same, sameKind]
    case isFalse otherKind =>
      have otherRank : first.kind.rank ≠ second.kind.rank :=
        DefinitionKind.rank_injective.ne otherKind
      simp [same, otherRank]

theorem le_or_le (first second : FileRecord) : (first.le second || second.le first) = true := by
  rw [Bool.or_eq_true, le_iff_key_le, le_iff_key_le]
  exact le_total _ _

theorem le_of_le_of_le (first second third : FileRecord) (before : first.le second = true)
    (behind : second.le third = true) : first.le third = true := by
  rw [le_iff_key_le] at before behind ⊢
  exact before.trans behind

theorem filename_le (before : first.le second = true) : first.filename ≤ second.filename :=
  Prod.Lex.monotone_fst _ _ (le_iff_key_le.mp before)

/-- Nothing of a record is left out of the order. -/
theorem key_injective : Function.Injective key := by
  rintro ⟨filename, kind, content⟩ ⟨other, otherKind, otherContent⟩ same
  simp only [key, EmbeddingLike.apply_eq_iff_eq, Prod.mk.injEq] at same
  rcases same with ⟨rfl, sameRank, rfl⟩
  rw [DefinitionKind.rank_injective sameRank]

theorem eq_of_le_of_le (before : first.le second = true) (behind : second.le first = true) :
    first = second := by
  rw [le_iff_key_le] at before behind
  exact key_injective (le_antisymm before behind)

/-- Queries come before fragments, and records of one kind are in the order of their contents. -/
def Precedes (first second : FileRecord) : Prop :=
  first.kind = .query ∧ second.kind = .fragment ∨
    first.kind = second.kind ∧ first.content ≤ second.content

theorem precedes_of_le (sameFile : first.filename = second.filename)
    (before : first.le second = true) : first.Precedes second := by
  rw [FileRecord.le, if_pos sameFile] at before
  split at before
  case isTrue sameKind => exact .inr ⟨sameKind, of_decide_eq_true before⟩
  case isFalse =>
    have ranked : first.kind.rank < second.kind.rank := of_decide_eq_true before
    left
    cases one : first.kind <;> cases other : second.kind <;>
      first | exact ⟨rfl, rfl⟩ | simp [one, other, DefinitionKind.rank] at ranked

variable {records others : List FileRecord}

theorem pairwise_mergeSort_le (records : List FileRecord) :
    (records.mergeSort le).Pairwise fun first second => first.le second = true :=
  List.pairwise_mergeSort le_of_le_of_le le_or_le records

/-- Records have only one order. -/
theorem mergeSort_eq_of_perm (perm : records.Perm others) :
    records.mergeSort le = others.mergeSort le := by
  apply List.Perm.eq_of_pairwise _ (pairwise_mergeSort_le records) (pairwise_mergeSort_le others)
  · exact (List.mergeSort_perm records le).trans (perm.trans (List.mergeSort_perm others le).symm)
  · intro first second _ _
    exact eq_of_le_of_le

theorem filter_mergeSort (keep : FileRecord → Bool) (records : List FileRecord) :
    (records.mergeSort le).filter keep = (records.filter keep).mergeSort le := by
  have ordered := (pairwise_mergeSort_le records).filter keep
  apply List.Perm.eq_of_pairwise _ ordered (pairwise_mergeSort_le (records.filter keep))
  · have kept := (List.mergeSort_perm records le).filter keep
    exact kept.trans (List.mergeSort_perm (records.filter keep) le).symm
  · intro first second _ _
    exact eq_of_le_of_le

end FileRecord

section Groups

variable {record : FileRecord} {records rest : List FileRecord} {group : String × List String}

/-- The first group is for the file of the first record. -/
theorem groupRecords_cons (record : FileRecord) (rest : List FileRecord) :
    (∃ contents others, groupRecords rest = (record.filename, contents) :: others ∧
      groupRecords (record :: rest) = (record.filename, record.content :: contents) :: others) ∨
    ((∀ group ∈ (groupRecords rest).head?, record.filename ≠ group.1) ∧
      groupRecords (record :: rest) =
        (record.filename, [record.content]) :: groupRecords rest) := by
  cases grouped : groupRecords rest with
  | nil => exact .inr ⟨by simp, by simp [groupRecords, grouped]⟩
  | cons group others =>
      by_cases same : record.filename = group.1
      · exact .inl ⟨group.2, others, by rw [same], by simp [groupRecords, grouped, same]⟩
      · exact .inr ⟨by simpa using same, by simp [groupRecords, grouped, same]⟩

theorem flatten_groupRecords (records : List FileRecord) :
    ((groupRecords records).map (·.2)).flatten = records.map (·.content) := by
  induction records with
  | nil => rfl
  | cons record rest ih =>
      rw [List.map_cons, ← ih]
      rcases groupRecords_cons record rest with ⟨contents, others, before, after⟩ | ⟨_, after⟩
      · rw [before, after]
        rfl
      · rw [after]
        rfl

theorem mem_groupRecords_cons (member : group ∈ groupRecords (record :: rest)) :
    (∃ contents, group = (record.filename, record.content :: contents)) ∨
      group ∈ groupRecords rest := by
  rcases groupRecords_cons record rest with ⟨contents, others, before, after⟩ | ⟨_, after⟩
  · rw [after, List.mem_cons] at member
    rcases member with rfl | member
    · exact .inl ⟨contents, rfl⟩
    · exact .inr (before ▸ List.mem_cons_of_mem _ member)
  · rw [after, List.mem_cons] at member
    rcases member with rfl | member
    · exact .inl ⟨[], rfl⟩
    · exact .inr member

theorem ne_nil_of_mem_groupRecords (member : group ∈ groupRecords records) : group.2 ≠ [] := by
  induction records with
  | nil => cases member
  | cons record rest ih =>
      rcases mem_groupRecords_cons member with ⟨contents, rfl⟩ | later
      · exact List.cons_ne_nil _ _
      · exact ih later

theorem exists_record_of_mem_groupRecords (member : group ∈ groupRecords records) :
    ∃ record ∈ records, record.filename = group.1 := by
  induction records with
  | nil => cases member
  | cons record rest ih =>
      rcases mem_groupRecords_cons member with ⟨contents, rfl⟩ | later
      · exact ⟨record, List.mem_cons_self, rfl⟩
      · rcases ih later with ⟨found, inRest, same⟩
        exact ⟨found, List.mem_cons_of_mem _ inRest, same⟩

/-- Records whose files are in order. -/
def FilesInOrder (records : List FileRecord) : Prop :=
  records.Pairwise fun first second => first.filename ≤ second.filename

/-- A record that starts a group of its own is for an earlier file than all that follow. -/
theorem FilesInOrder.filename_lt (inOrder : FilesInOrder (record :: rest))
    (apart : ∀ group ∈ (groupRecords rest).head?, record.filename ≠ group.1) :
    ∀ later ∈ rest, record.filename < later.filename := by
  rcases List.pairwise_cons.mp inOrder with ⟨first, restInOrder⟩
  cases rest with
  | nil => simp
  | cons next others =>
      have other : record.filename ≠ next.filename := by
        rcases groupRecords_cons next others with ⟨contents, groups, _, after⟩ | ⟨_, after⟩ <;>
          exact apart _ (by rw [after]; rfl)
      have before : record.filename < next.filename :=
        lt_of_le_of_ne (first next List.mem_cons_self) other
      intro later member
      rcases List.mem_cons.mp member with rfl | member
      · exact before
      · exact lt_of_lt_of_le before ((List.pairwise_cons.mp restInOrder).1 later member)

theorem FilesInOrder.pairwise_lt (inOrder : FilesInOrder records) :
    ((groupRecords records).map (·.1)).Pairwise (· < ·) := by
  induction records with
  | nil => exact List.Pairwise.nil
  | cons record rest ih =>
      have restOrdered := ih (List.pairwise_cons.mp inOrder).2
      rcases groupRecords_cons record rest with ⟨contents, others, before, after⟩ | ⟨apart, after⟩
      · rw [before] at restOrdered
        rw [after]
        exact restOrdered
      · rw [after, List.map_cons, List.pairwise_cons]
        refine ⟨?_, restOrdered⟩
        intro filename member
        rcases List.mem_map.mp member with ⟨group, inGroups, rfl⟩
        rcases exists_record_of_mem_groupRecords inGroups with ⟨found, inRest, same⟩
        exact same ▸ inOrder.filename_lt apart found inRest

/-- A group holds what all records of its file hold. -/
theorem FilesInOrder.contents_eq (inOrder : FilesInOrder records)
    (member : group ∈ groupRecords records) :
    group.2 = (records.filter (·.filename = group.1)).map (·.content) := by
  induction records generalizing group with
  | nil => cases member
  | cons record rest ih =>
      have restInOrder := (List.pairwise_cons.mp inOrder).2
      have ofLater : group ∈ groupRecords rest → record.filename < group.1 →
          group.2 = ((record :: rest).filter (·.filename = group.1)).map (·.content) := by
        intro inRest earlier
        rw [List.filter_cons_of_neg (by simpa using earlier.ne)]
        exact ih restInOrder inRest
      rcases groupRecords_cons record rest with ⟨contents, others, before, after⟩ | ⟨apart, after⟩
      · -- The record joins the first group of the rest; the groups behind it are for later files.
        have ordered := FilesInOrder.pairwise_lt restInOrder
        rw [before, List.map_cons, List.pairwise_cons] at ordered
        rw [after, List.mem_cons] at member
        rcases member with rfl | member
        · have inRest : (record.filename, contents) ∈ groupRecords rest :=
            before ▸ List.mem_cons_self
          rw [List.filter_cons_of_pos (by simp), List.map_cons, ← ih restInOrder inRest]
        · exact ofLater (before ▸ List.mem_cons_of_mem _ member)
            (ordered.1 _ (List.mem_map_of_mem member))
      · rw [after, List.mem_cons] at member
        -- No record of the rest is for the same file, or it would have joined the first group.
        rcases member with rfl | member
        · have none : rest.filter (·.filename = record.filename) = [] := by
            rw [List.filter_eq_nil_iff]
            intro later inRest
            simpa using (inOrder.filename_lt apart later inRest).ne'
          rw [List.filter_cons_of_pos (by simp), none]
          rfl
        · rcases exists_record_of_mem_groupRecords member with ⟨found, inRest, same⟩
          exact ofLater member (same ▸ inOrder.filename_lt apart found inRest)

/-- There is a group for every file that some record goes to, and for no other. -/
theorem mem_map_groupRecords_iff {filename : String} :
    filename ∈ (groupRecords records).map (·.1) ↔ filename ∈ records.map (·.filename) := by
  induction records with
  | nil => rfl
  | cons record rest ih =>
      rw [List.map_cons, List.mem_cons]
      rcases groupRecords_cons record rest with ⟨contents, others, before, after⟩ | ⟨_, after⟩
      · rw [before, List.map_cons, List.mem_cons] at ih
        rw [after, List.map_cons, List.mem_cons, ← ih, or_self_left]
      · rw [after, List.map_cons, List.mem_cons, ih]

end Groups

section Sorting

variable {records others : List FileRecord} {definitions permuted : List RawDefinition}

theorem filesInOrder_mergeSort (records : List FileRecord) :
    FilesInOrder (records.mergeSort FileRecord.le) :=
  (FileRecord.pairwise_mergeSort_le records).imp FileRecord.filename_le

theorem mergeFileRecords_eq_of_perm (perm : records.Perm others) :
    mergeFileRecords records = mergeFileRecords others := by
  rw [mergeFileRecords, mergeFileRecords, FileRecord.mergeSort_eq_of_perm perm]

theorem groupDefinitions_eq_of_perm (perm : definitions.Perm permuted) (extension : String) :
    groupDefinitions extension definitions = groupDefinitions extension permuted :=
  mergeFileRecords_eq_of_perm (perm.map _)

end Sorting

end QueryPrep.Source
