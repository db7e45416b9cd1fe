import QueryPrep.Files.Tree
import QueryPrep.Text.Lines
import Mathlib.Data.List.Sort
import Mathlib.Data.String.Basic

/-!
# What a directory lists

A tree has at most one node at a path. So the names inside a directory are distinct, and once they
are sorted each one comes strictly before the next.

The contents of files are not taken as they are but read as text, line by line. What that makes of
the bytes is described here by relations: bytes encode a text, and its line endings are translated.
-/

namespace QueryPrep.Text

/-- What a text is read as: each line ending becomes a line feed, and all else stays. -/
inductive ReadsAs : List Char → List Char → Prop
  | nil : ReadsAs [] []
  | pair {rest read : List Char} (later : ReadsAs rest read) :
      ReadsAs ('\r' :: '\n' :: rest) ('\n' :: read)
  | lone {rest read : List Char} (alone : rest.head? ≠ some '\n') (later : ReadsAs rest read) :
      ReadsAs ('\r' :: rest) ('\n' :: read)
  | other {character : Char} {rest read : List Char} (differs : character ≠ '\r')
      (later : ReadsAs rest read) : ReadsAs (character :: rest) (character :: read)

theorem readsAs_withLineFeeds (text : List Char) : ReadsAs text (withLineFeeds text) := by
  fun_induction withLineFeeds text with
  | case1 => exact .nil
  | case2 rest ih => exact .pair ih
  | case3 rest notPair ih =>
      apply ReadsAs.lone _ ih
      intro feed
      rcases List.head?_eq_some_iff.mp feed with ⟨behind, rfl⟩
      exact notPair behind rfl
  | case4 character rest notPair notReturn ih => exact .other notReturn ih

theorem ReadsAs.eq_withLineFeeds {text read : List Char} (reads : ReadsAs text read) :
    read = withLineFeeds text := by
  induction reads with
  | nil => rfl
  | pair later ih => simp [withLineFeeds, ih]
  | @lone rest read alone later ih =>
      cases rest with
      | nil => simp [withLineFeeds, ih]
      | cons next behind =>
          have notFeed : next ≠ '\n' := by simpa using alone
          simp [withLineFeeds, ih, notFeed]
  | other differs later ih => simp [withLineFeeds, ih, differs]

theorem readsAs_iff_readContent {raw content : String} :
    ReadsAs raw.toList content.toList ↔ readContent raw = content := by
  constructor
  · intro reads
    simp [readContent, ← reads.eq_withLineFeeds]
  · rintro rfl
    simpa [readContent] using readsAs_withLineFeeds raw.toList

/-- Bytes are read as a content: they encode a text, and only line endings differ. -/
def Reads (bytes : ByteArray) (content : String) : Prop :=
  ∃ text : String, text.toUTF8 = bytes ∧ ReadsAs text.toList content.toList

/-- Bytes that can be read, since they encode some text. -/
def Legible (bytes : ByteArray) : Prop :=
  ∃ content, Reads bytes content

theorem fromUTF8?_eq_some_iff {bytes : ByteArray} {text : String} :
    String.fromUTF8? bytes = some text ↔ text.toUTF8 = bytes := by
  constructor
  · intro decoded
    unfold String.fromUTF8? at decoded
    split at decoded
    · cases decoded
      rfl
    · cases decoded
  · rintro rfl
    exact dif_pos text.isValidUTF8

theorem readText?_eq_some_iff {bytes : ByteArray} {content : String} :
    readText? bytes = some content ↔ Reads bytes content := by
  simp only [readText?, Option.map_eq_some_iff, fromUTF8?_eq_some_iff, Reads,
    readsAs_iff_readContent]

theorem Reads.unique {bytes : ByteArray} {content other : String} (reads : Reads bytes content)
    (readsOther : Reads bytes other) : content = other := by
  rw [← readText?_eq_some_iff] at reads readsOther
  rwa [reads, Option.some.injEq] at readsOther

theorem readText?_eq_none_iff {bytes : ByteArray} :
    readText? bytes = none ↔ ¬ Legible bytes := by
  simp only [Option.eq_none_iff_forall_ne_some, ne_eq, readText?_eq_some_iff, Legible, not_exists]

end QueryPrep.Text

namespace QueryPrep.Files.Tree

open QueryPrep.Text

variable {tree : Tree} {directory path : Path} {name : String} {bytes : ByteArray} {node : Node}

theorem lookup_of_mem {entries : List (Path × Node)} (distinct : (entries.map Prod.fst).Nodup)
    (member : (path, node) ∈ entries) : entries.lookup path = some node := by
  induction entries with
  | nil => simp at member
  | cons first rest ih =>
      rcases first with ⟨firstPath, firstNode⟩
      have parts := List.nodup_cons.mp distinct
      rcases List.mem_cons.mp member with here | later
      · cases here
        exact List.lookup_cons_self
      · have differs : path ≠ firstPath := by
          rintro rfl
          exact parts.1 (List.mem_map.mpr ⟨_, later, rfl⟩)
        rw [List.lookup_cons, beq_eq_false_iff_ne.mpr differs]
        exact ih parts.2 later

theorem find?_eq_some_file_iff :
    tree.find? path = some (.file bytes) ↔ (path, .file bytes) ∈ tree.entries := by
  constructor
  · intro found
    unfold find? at found
    split at found
    · simp at found
    · rcases List.lookup_eq_some_iff.mp found with ⟨before, behind, split, _⟩
      simp [split]
  · intro member
    simp [find?, tree.below _ member, lookup_of_mem tree.distinct member]

theorem child?_eq_some_iff {entry : Path × Node} {child : String × Node} :
    child? directory entry = some child ↔ entry = (directory ++ [child.1], child.2) := by
  rcases entry with ⟨path, node⟩
  rcases child with ⟨name, childNode⟩
  rcases List.eq_nil_or_concat path with rfl | ⟨above, last, rfl⟩
  · simp [child?]
  · simp only [child?, List.concat_eq_append, List.getLast?_append_cons, List.getLast?_singleton,
      List.dropLast_concat]
    constructor
    · intro found
      split at found <;> simp_all
    · intro same
      simp_all

theorem mem_children_iff :
    (name, node) ∈ tree.children directory ↔ (directory ++ [name], node) ∈ tree.entries := by
  simp only [children, List.mem_mergeSort, List.mem_filterMap, child?_eq_some_iff]
  constructor
  · rintro ⟨entry, member, rfl⟩
    exact member
  · intro member
    exact ⟨_, member, rfl⟩

theorem pairwise_children :
    ((tree.children directory).map Prod.fst).Pairwise (· < ·) := by
  have ordered : (tree.children directory).Pairwise (fun first second => first.1 ≤ second.1) := by
    have sorted := @List.pairwise_mergeSort _
      (fun first second : String × Node => decide (first.1 ≤ second.1))
      (fun _ _ _ before behind => by
        simp only [decide_eq_true_eq] at before behind ⊢
        exact before.trans behind)
      (fun first second => by simpa using le_total first.1 second.1)
      (tree.entries.filterMap (child? directory))
    simpa [children] using sorted
  have distinct : (tree.children directory).Pairwise (fun first second => first.1 ≠ second.1) := by
    apply (List.mergeSort_perm _ _).symm.pairwise _ fun differs => Ne.symm differs
    apply List.pairwise_filterMap.mpr
    apply (List.pairwise_map.mp tree.distinct).imp
    intro first second differs child found other otherFound same
    rw [child?_eq_some_iff] at found otherFound
    apply differs
    simp [found, otherFound, same]
  apply List.pairwise_map.mpr
  apply ordered.imp₂ _ distinct
  intro first second before differs
  exact lt_of_le_of_ne before differs

theorem mem_filesIn_iff :
    (name, bytes) ∈ tree.filesIn directory ↔
      tree.find? (directory ++ [name]) = some (.file bytes) := by
  rw [find?_eq_some_file_iff, ← mem_children_iff, filesIn, List.mem_filterMap]
  constructor
  · rintro ⟨⟨childName, node⟩, member, found⟩
    cases node with
    | directory => simp at found
    | file raw =>
        simp only [Option.some.injEq, Prod.mk.injEq] at found
        rcases found with ⟨rfl, rfl⟩
        exact member
  · intro member
    exact ⟨(name, .file bytes), member, rfl⟩

theorem pairwise_filesIn : ((tree.filesIn directory).map Prod.fst).Pairwise (· < ·) := by
  -- A file keeps the name of its node, so the order of the nodes carries over.
  apply List.pairwise_map.mpr
  apply List.pairwise_filterMap.mpr
  apply (List.pairwise_map.mp pairwise_children).imp
  rintro ⟨name, node⟩ ⟨otherName, otherNode⟩ before file found other otherFound
  cases node <;> cases otherNode <;> simp_all
  subst file other
  exact before

/--
The texts of the plain files directly inside the directory that the steps lead to, ordered by name.
There are none if the steps lead to no directory.
-/
structure ListsFiles (tree : Tree) (steps : List String) (listing : List (String × String)) :
    Prop where
  ordered : (listing.map Prod.fst).Pairwise (· < ·)
  mem_iff : ∀ name content, (name, content) ∈ listing ↔
    ∃ directory bytes, tree.walk [] steps = .ok directory ∧
      tree.find? directory = some .directory ∧
      tree.find? (directory ++ [name]) = some (.file bytes) ∧
      Reads bytes content

/-- The plain files directly inside the directory that the steps lead to can all be read. -/
def AllLegible (tree : Tree) (steps : List String) : Prop :=
  ∀ directory name bytes, tree.walk [] steps = .ok directory →
    tree.find? directory = some .directory →
      tree.find? (directory ++ [name]) = some (.file bytes) → Legible bytes

end QueryPrep.Files.Tree
