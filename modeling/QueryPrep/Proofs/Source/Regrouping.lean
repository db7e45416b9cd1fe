import QueryPrep.Proofs.Source.Grouping
import QueryPrep.Proofs.Source.Resplitting

/-!
# Files that are split and grouped again

A file consists of its definitions with the marks of tagged templates around them, and there is no
keyword in those marks. So splitting a file gives its definitions back, and splitting all files one
after the other gives all definitions in file order. They are sorted already, and grouping them
again gives the same files.
-/

namespace QueryPrep.Source

section Rendering

variable {groups : List (List String)} {definitions : List RawDefinition}

theorem renderContents_append {before behind : List String} (first : before ≠ [])
    (second : behind ≠ []) :
    renderContents (before ++ behind) =
      renderContents before ++ "\n" ++ renderContents behind := by
  rw [renderContents, List.map_append]
  exact String.intercalate_append_of_ne_nil (by simpa using first) (by simpa using second)

/-- Files that are joined by line feeds read as one file. -/
theorem intercalate_renderContents (inhabited : ∀ contents ∈ groups, contents ≠ []) :
    String.intercalate "\n" (groups.map renderContents) = renderContents groups.flatten := by
  induction groups with
  | nil => rfl
  | cons contents others ih =>
      have first := inhabited contents List.mem_cons_self
      have rest := ih fun group member => inhabited group (List.mem_cons_of_mem _ member)
      cases others with
      | nil => simp
      | cons next others =>
          have second : (next :: others).flatten ≠ [] := by
            have present := inhabited next (by simp)
            simp [present]
          rw [List.map_cons, List.flatten_cons, renderContents_append first second, ← rest]
          exact String.intercalate_cons_of_ne_nil (by simp)

/-- What stands before a definition in its file. -/
def opener : List Char := "graphql`".toList

/-- What stands after a definition in its file. -/
def closer : List Char := "`".toList

theorem toList_tagged (content : String) :
    (tagged content).toList = opener ++ (content.toList ++ closer) := by
  rw [tagged, String.toList_append, String.toList_append, List.append_assoc]
  rfl

theorem toList_renderContents_singleton (content : String) :
    (renderContents [content]).toList = opener ++ (content.toList ++ closer) := by
  rw [← toList_tagged, renderContents, List.map_singleton, String.intercalate_singleton]

theorem toList_renderContents_cons (content : String) {contents : List String}
    (more : contents ≠ []) :
    (renderContents (content :: contents)).toList =
      opener ++ (content.toList ++ (closer ++ '\n' :: (renderContents contents).toList)) := by
  have split := renderContents_append (List.cons_ne_nil content []) more
  rw [List.singleton_append] at split
  rw [split, String.toList_append, String.toList_append, toList_renderContents_singleton]
  simp only [List.append_assoc]
  rfl

theorem mem_keyword (kind : DefinitionKind) : 'e' ∈ kind.keyword.toList := by
  cases kind <;> decide

/-- Every keyword has this letter in it, and no mark of a tagged template has. -/
theorem keywordFree_of_not_mem {text : List Char} (without : 'e' ∉ text) : KeywordFree text :=
  fun kind within => without (within.subset (mem_keyword kind))

theorem not_mem_opener : 'e' ∉ opener := by decide

theorem not_mem_closer : 'e' ∉ closer := by decide

/-- Rendered definitions stand between gaps, whether or not a line ends before them. -/
theorem interleaves_renderContents (standalone : ∀ definition ∈ definitions, Standalone definition)
    {gap : List Char} (without : 'e' ∉ gap) :
    Interleaves (gap ++ (renderContents (definitions.map (·.content))).toList) definitions := by
  induction definitions generalizing gap with
  | nil =>
      apply Interleaves.gap
      apply keywordFree_of_not_mem
      simpa [renderContents] using without
  | cons definition others ih =>
      have alone := standalone definition List.mem_cons_self
      have free : KeywordFree (gap ++ opener) := by
        apply keywordFree_of_not_mem
        simp [without, not_mem_opener]
      rw [List.map_cons]
      by_cases last : others = []
      · subst last
        rw [List.map_nil, toList_renderContents_singleton, ← List.append_assoc]
        exact .definition free alone (.gap (keywordFree_of_not_mem not_mem_closer))
      · have lineWithout : 'e' ∉ closer ++ ['\n'] := by simp [not_mem_closer]
        have later := ih (fun other member => standalone other (List.mem_cons_of_mem _ member))
          lineWithout
        rw [List.append_assoc, List.singleton_append] at later
        rw [toList_renderContents_cons _ (by simpa using last), ← List.append_assoc]
        exact .definition free alone later

/-- Splitting a file reads its definitions back. -/
theorem splitDefinitions_renderContents
    (standalone : ∀ definition ∈ definitions, Standalone definition) :
    splitDefinitions (renderContents (definitions.map (·.content))) = .ok definitions := by
  have interleaves := interleaves_renderContents standalone List.not_mem_nil
  rw [List.nil_append] at interleaves
  exact splitDefinitions_of_interleaves interleaves

end Rendering

section Files

variable {extension text : String} {definitions : List RawDefinition} {file : MergedFile}

/-- The definitions in the order of their files, and in the order within a file. -/
def inFileOrder (extension : String) (definitions : List RawDefinition) : List RawDefinition :=
  definitions.mergeSort fun first second =>
    (first.toRecord extension).le (second.toRecord extension)

theorem perm_inFileOrder : (inFileOrder extension definitions).Perm definitions :=
  List.mergeSort_perm definitions _

theorem map_toRecord_inFileOrder :
    (inFileOrder extension definitions).map (·.toRecord extension) =
      (definitions.map (·.toRecord extension)).mergeSort FileRecord.le :=
  List.map_mergeSort fun _ _ _ _ => rfl

theorem pairwise_inFileOrder :
    (inFileOrder extension definitions).Pairwise fun first second =>
      (first.toRecord extension).le (second.toRecord extension) = true := by
  have ordered := FileRecord.pairwise_mergeSort_le (definitions.map (·.toRecord extension))
  rwa [← map_toRecord_inFileOrder, List.pairwise_map] at ordered

theorem filesInOrder_inFileOrder :
    FilesInOrder ((inFileOrder extension definitions).map (·.toRecord extension)) := by
  rw [map_toRecord_inFileOrder]
  exact filesInOrder_mergeSort _

theorem groupDefinitions_eq_map :
    groupDefinitions extension definitions =
      (groupRecords ((inFileOrder extension definitions).map (·.toRecord extension))).map
        fun group => ⟨group.1, renderContents group.2⟩ := by
  rw [groupDefinitions, mergeFileRecords, map_toRecord_inFileOrder]

/-- Definitions in file order are grouped as they are in any other order. -/
theorem groupDefinitions_inFileOrder :
    groupDefinitions extension (inFileOrder extension definitions) =
      groupDefinitions extension definitions :=
  groupDefinitions_eq_of_perm perm_inFileOrder extension

/-- Does the definition go to the file? -/
def GoesTo (extension filename : String) (definition : RawDefinition) : Prop :=
  filenameFor definition.kind definition.name extension = filename

instance (extension filename : String) : DecidablePred (GoesTo extension filename) :=
  fun _ => inferInstanceAs (Decidable (_ = _))

theorem content_of_mem_groupDefinitions (member : file ∈ groupDefinitions extension definitions) :
    file.content = renderContents
      (((inFileOrder extension definitions).filter (GoesTo extension file.filename)).map
        (·.content)) := by
  rw [groupDefinitions_eq_map, List.mem_map] at member
  rcases member with ⟨group, member, rfl⟩
  rw [filesInOrder_inFileOrder.contents_eq member, List.filter_map, List.map_map]
  rfl

theorem intercalate_groupDefinitions :
    String.intercalate "\n" ((groupDefinitions extension definitions).map (·.content)) =
      renderContents ((inFileOrder extension definitions).map (·.content)) := by
  let groups := groupRecords ((inFileOrder extension definitions).map (·.toRecord extension))
  have inhabited : ∀ contents ∈ groups.map (·.2), contents ≠ [] := by
    intro contents member
    rcases List.mem_map.mp member with ⟨group, inGroups, rfl⟩
    exact ne_nil_of_mem_groupRecords inGroups
  have whole :
      (groups.map (·.2)).flatten = (inFileOrder extension definitions).map (·.content) := by
    rw [flatten_groupRecords, List.map_map]
    rfl
  rw [← whole, ← intercalate_renderContents inhabited, groupDefinitions_eq_map, List.map_map,
    List.map_map]
  rfl

/-- Queries are listed before fragments, and definitions of one kind by their text. -/
def ListedBefore (first second : RawDefinition) : Prop :=
  first.kind = .query ∧ second.kind = .fragment ∨
    first.kind = second.kind ∧ first.content ≤ second.content

theorem listedBefore_of_le {first second : RawDefinition} {filename : String}
    (sameFile : GoesTo extension filename first) (alsoHere : GoesTo extension filename second)
    (before : (first.toRecord extension).le (second.toRecord extension) = true) :
    ListedBefore first second :=
  FileRecord.precedes_of_le (sameFile.trans alsoHere.symm) before

theorem pairwise_listedBefore (filename : String) :
    ((inFileOrder extension definitions).filter (GoesTo extension filename)).Pairwise
      ListedBefore := by
  rw [List.pairwise_filter]
  refine pairwise_inFileOrder.imp ?_
  intro first second before sameFile alsoHere
  exact listedBefore_of_le (of_decide_eq_true sameFile) (of_decide_eq_true alsoHere) before

/--
Files are split into what they were grouped from. A single file gives exactly the definitions that
go to it, and all files together give all definitions, from which the same files come again.
-/
theorem regroup_of_splitDefinitions (split : splitDefinitions text = .ok definitions)
    (extension : String) :
    (∀ file ∈ groupDefinitions extension definitions, ∃ found,
      splitDefinitions file.content = .ok found ∧
      found.Perm (definitions.filter (GoesTo extension file.filename)) ∧
      found.Pairwise ListedBefore) ∧
    ∃ found,
      splitDefinitions
        (String.intercalate "\n" ((groupDefinitions extension definitions).map (·.content))) =
          .ok found ∧
      found.Perm definitions ∧
      groupDefinitions extension found = groupDefinitions extension definitions := by
  have standalone : ∀ definition ∈ inFileOrder extension definitions, Standalone definition := by
    intro definition member
    exact standalone_of_splitDefinitions split definition (perm_inFileOrder.mem_iff.mp member)
  constructor
  · intro file member
    rw [content_of_mem_groupDefinitions member]
    refine ⟨_, splitDefinitions_renderContents ?_, perm_inFileOrder.filter _,
      pairwise_listedBefore _⟩
    intro definition inFile
    exact standalone definition (List.mem_of_mem_filter inFile)
  · rw [intercalate_groupDefinitions]
    exact ⟨_, splitDefinitions_renderContents standalone, perm_inFileOrder,
      groupDefinitions_inFileOrder⟩

/-- A text with a stray brace between its definitions and marks of a template inside them. -/
def cardText : String :=
  "\x7d fragment Card_user on User \x7b id `name` \x7d\n\x7b query CardQuery \x7b ...Card_user \x7d"

def cardDefinitions : List RawDefinition :=
  [⟨.fragment, "Card_user", "fragment Card_user on User \x7b id `name` \x7d"⟩,
    ⟨.query, "CardQuery", "query CardQuery \x7b ...Card_user \x7d"⟩]

theorem splitDefinitions_cardText : splitDefinitions cardText = .ok cardDefinitions := by
  decide +kernel

theorem regroup_cardText :
    splitDefinitions cardText = .ok cardDefinitions ∧
    ∃ found,
      splitDefinitions
        (String.intercalate "\n" ((groupDefinitions ".js" cardDefinitions).map (·.content))) =
          .ok found ∧
      found.Perm cardDefinitions ∧
      groupDefinitions ".js" found = groupDefinitions ".js" cardDefinitions :=
  ⟨splitDefinitions_cardText, (regroup_of_splitDefinitions splitDefinitions_cardText ".js").2⟩

end Files

end QueryPrep.Source
