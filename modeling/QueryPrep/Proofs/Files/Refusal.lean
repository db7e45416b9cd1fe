import QueryPrep.Proofs.Files.Writing

/-!
# Refusals

A directory cannot be made if a file is in the way, and a file cannot be written in the place of a
directory. So a tree that does not accept some files fails to take them: either their directory is
refused, or one of them is.
-/

namespace QueryPrep.Files

namespace Tree

variable {tree : Tree} {path here above : Path} {rest : List String}
variable {bytes : ByteArray}

/-- A name that cannot be written to: two dots lead back, and a directory is no file. -/
def Refuses (tree : Tree) (directory : Path) (name : String) : Prop :=
  name = ".." ∨ tree.find? (directory ++ [name]) = some .directory

/-- A file on the way ends a walk, unless it has ended before. -/
theorem walk_of_blocked (canonical : Canonical (here ++ rest)) (within : above <+: rest)
    (differs : above ≠ rest) (blocked : tree.find? (here ++ above) = some (.file bytes)) :
    ∃ error, tree.walk here rest = .error error := by
  induction rest generalizing here above with
  | nil => exact absurd (List.prefix_nil.mp within) differs
  | cons step rest ih =>
      cases found : tree.find? here with
      | none => exact ⟨.notFound, by simp [walk, found]⟩
      | some node =>
          cases node with
          | file other => exact ⟨.notDirectory, by simp [walk, found]⟩
          | directory =>
              cases above with
              | nil => simp [found] at blocked
              | cons first others =>
                  rcases List.cons_prefix_cons.mp within with ⟨rfl, later⟩
                  rw [List.append_cons] at blocked canonical
                  have onward := follow_eq (canonical.of_prefix (List.prefix_append _ rest))
                  have longer : others ≠ rest := by
                    rintro rfl
                    exact differs rfl
                  simp only [walk, found, onward]
                  exact ih canonical later longer blocked

theorem walk_of_not_openTo {directory : Path} {name : String}
    (canonical : Canonical (directory ++ [name])) (blocked : ¬ tree.OpenTo directory) :
    ∃ error, tree.walk [] (directory ++ [name]) = .error error := by
  simp only [OpenTo, not_forall, Decidable.not_not] at blocked
  rcases blocked with ⟨above, within, bytes, found⟩
  have prefixed := List.prefix_append directory [name]
  refine @walk_of_blocked tree [] above _ bytes canonical (within.trans prefixed) ?_ found
  rintro rfl
  exact not_concat_prefix within

/-- Two dots at the end of a way lead back from there. -/
theorem LeadsTo.walk_concat (leads : tree.LeadsTo path) (canonical : Canonical path)
    (step : String) : tree.walk [] (path ++ [step]) = .ok (follow path step) := by
  rw [walk_steps_append, leads.walk_eq canonical]
  simp only [Except.bind, walk, leads path List.prefix_rfl]

theorem OpenTo.exists_file_of_not_openTo {directory : Path} {name : String}
    (passable : tree.OpenTo directory) (blocked : ¬ tree.OpenTo (directory ++ [name])) :
    ∃ bytes, tree.find? (directory ++ [name]) = some (.file bytes) := by
  by_contra absent
  apply blocked
  intro above within bytes found
  rcases List.prefix_concat_iff.mp within with rfl | inside
  · exact absent ⟨bytes, found⟩
  · exact passable above inside bytes found

theorem LeadsTo.find?_dropLast (leads : tree.LeadsTo path) :
    tree.find? path.dropLast = some .directory :=
  leads _ (List.dropLast_prefix path)

end Tree

namespace Change

open QueryPrep.Files.Tree

variable {tree : Tree} {path directory : Path} {name : String} {bytes : ByteArray}

theorem ensureDirectory_of_file (leads : tree.LeadsTo directory)
    (canonical : Canonical (directory ++ [name]))
    (blocked : tree.find? (directory ++ [name]) = some (.file bytes)) :
    ensureDirectory (directory ++ [name]) tree = .error .alreadyExists tree := by
  rw [ensureDirectory, makeDirectory_of_present leads canonical blocked]
  apply if_neg
  rw [isDirectory_iff_of_walk (walk_append leads canonical), blocked]
  simp

/-- A file in the place of a directory stays there while those above are made. -/
theorem exists_error_of_file (canonical : Canonical (directory ++ [name]))
    (passable : tree.OpenTo directory)
    (present : tree.find? (directory ++ [name]) = some (.file bytes)) :
    ∃ error left, ensureDirectories (directory ++ [name]) tree = .error error left := by
  by_cases leads : tree.LeadsTo directory
  case pos =>
    refine ⟨.alreadyExists, tree, ?_⟩
    rw [ensureDirectories_of_leadsTo leads canonical,
      ensureDirectory_of_file leads canonical present]
  case neg =>
    have missing : makeDirectory (directory ++ [name]) tree = .error .notFound tree := by
      rw [makeDirectory, walk_append_of_missing canonical passable leads]
    have canonicalAbove := canonical.of_prefix (List.prefix_append directory [name])
    rcases exists_ensureDirectories canonicalAbove passable with ⟨between, made, makes⟩
    have stillPresent : between.find? (directory ++ [name]) = some (.file bytes) := by
      rw [makes, if_neg not_concat_prefix, present]
    refine ⟨.alreadyExists, between, ?_⟩
    rw [ensureDirectories_concat, missing]
    simp only [made]
    exact ensureDirectory_of_file makes.leadsTo canonical stillPresent

/-- Below a file no directory is made; if the directories above are tried, these fail already. -/
theorem exists_error_of_error_above (canonical : Canonical (directory ++ [name]))
    (blocked : ¬ tree.OpenTo directory)
    (above : ∃ error left, ensureDirectories directory tree = .error error left) :
    ∃ error left, ensureDirectories (directory ++ [name]) tree = .error error left := by
  rcases above with ⟨error, left, failed⟩
  rcases walk_of_not_openTo canonical blocked with ⟨reason, walked⟩
  have refused : makeDirectory (directory ++ [name]) tree = .error reason tree := by
    rw [makeDirectory, walked]
  have noDirectory : ¬ tree.isDirectory (directory ++ [name]) = true := by
    rw [isDirectory_of_walk_error walked]
    exact Bool.false_ne_true
  rw [ensureDirectories_concat, refused]
  cases reason
  case notFound => exact ⟨error, left, by simp only [failed]⟩
  all_goals exact ⟨_, tree, if_neg noDirectory⟩

theorem exists_error_of_not_openTo (canonical : Canonical path) (blocked : ¬ tree.OpenTo path) :
    ∃ error left, ensureDirectories path tree = .error error left := by
  induction path using List.reverseRecOn with
  | nil =>
      exfalso
      apply blocked
      intro above within bytes
      simp [List.prefix_nil.mp within, find?]
  | append_singleton directory name ih =>
      by_cases passable : tree.OpenTo directory
      case pos =>
        rcases passable.exists_file_of_not_openTo blocked with ⟨bytes, present⟩
        exact exists_error_of_file canonical passable present
      case neg =>
        have above := ih (canonical.of_prefix (List.prefix_append directory [name])) passable
        exact exists_error_of_error_above canonical passable above

theorem writeFile_of_refuses (leads : tree.LeadsTo directory) (canonical : Canonical directory)
    (refuses : tree.Refuses directory name) (content : String) :
    writeFile (directory ++ [name]) content tree = .error .isDirectory tree := by
  rw [writeFile, leads.walk_concat canonical]
  have isDirectory : tree.find? (follow directory name) = some .directory := by
    by_cases dots : name = ".."
    · rw [follow, if_pos dots]
      exact leads.find?_dropLast
    · rw [follow, if_neg dots]
      exact refuses.resolve_left dots
  simp only [isDirectory]

end Change

namespace Tree

variable {tree : Tree} {directory : Path} {name : String} {files : List (String × String)}

theorem exists_refuses_of_not_accepts (passable : tree.OpenTo directory)
    (refused : ¬ tree.Accepts directory (inDirectory directory files)) :
    ∃ file ∈ files, tree.Refuses directory file.1 := by
  by_contra none
  apply refused
  constructor
  case passable => exact passable
  case free =>
    intro file member isDirectory
    rcases List.mem_map.mp member with ⟨named, inFiles, rfl⟩
    exact none ⟨named, inFiles, .inr isDirectory⟩
  case named =>
    intro file member dots
    rcases List.mem_map.mp member with ⟨named, inFiles, rfl⟩
    rw [List.getLast?_concat, Option.some.injEq] at dots
    exact none ⟨named, inFiles, .inl dots⟩

theorem receives_of_not_refuses (leads : tree.LeadsTo directory) (canonical : Canonical directory)
    (writable : ¬ tree.Refuses directory name) : tree.Receives directory [name] := by
  rw [Refuses, not_or] at writable
  constructor
  case leads => exact leads
  case canonical =>
    intro other member
    rw [List.mem_singleton.mp member]
    exact canonical.append writable.1
  case free =>
    intro other member
    rw [List.mem_singleton.mp member]
    exact writable.2

/-- Writing a file leaves the other names refused that were refused before. -/
theorem Refuses.put {other content : String} (refuses : tree.Refuses directory other)
    (writable : ¬ tree.Refuses directory name) :
    (tree.put (directory ++ [name]) (.text content)).Refuses directory other := by
  rw [Refuses, not_or] at writable
  rcases refuses with dots | isDirectory
  · exact .inl dots
  · have differs : directory ++ [other] ≠ directory ++ [name] := by
      intro same
      exact writable.2 (same ▸ isDirectory)
    rw [Refuses, find?_put (below_of_find?_ne writable.2), if_neg differs]
    exact .inr isDirectory

/-- What is not accepted is refused at once, or when the file is written that cannot be. -/
theorem exists_refused (canonical : Canonical directory)
    (refused : ¬ tree.Accepts directory (inDirectory directory files)) :
    (∃ error left, Change.ensureDirectories directory tree = .error error left) ∨
    ∃ made, Change.ensureDirectories directory tree = .ok () made ∧ made.LeadsTo directory ∧
      ∃ file ∈ files, made.Refuses directory file.1 := by
  by_cases passable : tree.OpenTo directory
  case neg => exact .inl (Change.exists_error_of_not_openTo canonical passable)
  case pos =>
    rcases Change.exists_ensureDirectories canonical passable with ⟨made, succeeds, makes⟩
    rcases exists_refuses_of_not_accepts passable refused with ⟨file, member, refuses⟩
    refine .inr ⟨made, succeeds, makes.leadsTo, file, member, ?_⟩
    rcases refuses with dots | isDirectory
    · exact .inl dots
    · rw [Refuses, makes, if_neg not_concat_prefix]
      exact .inr isDirectory

end Tree

end QueryPrep.Files
