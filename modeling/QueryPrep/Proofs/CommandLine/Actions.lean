import QueryPrep.CommandLine.Run
import QueryPrep.Proofs.Files.Refusal

/-!
# The steps of a call

What each step of a call makes of the files and of the two streams. The files change only where
files are written: all at once, or as far as the first one that is refused.
-/

namespace QueryPrep.CommandLine

open QueryPrep.Files QueryPrep.Relay QueryPrep.Text

variable {surroundings : Surroundings} {tree : Tree} {name : String}
variable {directory : Path} {files : List (String × String)}
variable (verbose : Bool) (stdout stderr : String) (calls : List ToolCall)

theorem run_bind {α β : Type} {action : Action α} {next : α → Action β} {value : α}
    {before after : Console} (ran : action before = .ok value after) :
    (action >>= next) before = next value after := by
  simp [bind, EStateM.bind, ran]

theorem run_bind_of_error {α β : Type} {action : Action α} {next : α → Action β} {stop : Stop}
    {before after : Console} (failed : action before = .error stop after) :
    (action >>= next) before = .error stop after := by
  simp [bind, EStateM.bind, failed]

theorem run_readInput {text : String} (read : inputText surroundings tree name = .ok text) :
    readInput surroundings name ⟨tree, stdout, stderr, calls⟩ =
      .ok text ⟨tree, stdout, stderr, calls⟩ := by
  simp only [readInput, read]

theorem run_readInput_of_error {crash : Crash}
    (failed : inputText surroundings tree name = .error crash) :
    readInput surroundings name ⟨tree, stdout, stderr, calls⟩ =
      .error (.crash crash) ⟨tree, stdout, stderr, calls⟩ := by
  simp only [readInput, failed]

theorem run_say (line : String) (tree : Tree) :
    ∃ last, say line ⟨tree, stdout, stderr, calls⟩ = .ok () ⟨tree, last, stderr, calls⟩ :=
  ⟨_, rfl⟩

theorem run_sayIf (line : String) (tree : Tree) :
    ∃ last, sayIf verbose line ⟨tree, stdout, stderr, calls⟩ =
      .ok () ⟨tree, last, stderr, calls⟩ := by
  cases verbose with
  | false => exact ⟨stdout, rfl⟩
  | true => exact run_say stdout stderr calls line tree

theorem run_report (events : List Event) (tree : Tree) :
    ∃ last, report verbose events ⟨tree, stdout, stderr, calls⟩ =
      .ok () ⟨tree, stdout, last, calls⟩ := by
  unfold report
  induction events.filterMap (eventLine? verbose) generalizing stderr with
  | nil => exact ⟨stderr, rfl⟩
  | cons line rest ih => exact ih (stderr ++ line ++ "\n")

theorem run_change {action : Change Unit} {after : Tree} (succeeds : action tree = .ok () after) :
    change action ⟨tree, stdout, stderr, calls⟩ = .ok () ⟨after, stdout, stderr, calls⟩ := by
  simp [change, succeeds]

theorem run_change_of_error {action : Change Unit} {error : FileError} {left : Tree}
    (failed : action tree = .error error left) :
    change action ⟨tree, stdout, stderr, calls⟩ =
      .error (.crash (.file error)) ⟨left, stdout, stderr, calls⟩ := by
  simp [change, failed]

theorem run_writeFiles (receives : tree.Receives directory (files.map Prod.fst)) :
    ∃ last, writeFiles verbose directory files ⟨tree, stdout, stderr, calls⟩ =
      .ok () ⟨tree.putFiles directory files, last, stderr, calls⟩ := by
  induction files generalizing tree stdout with
  | nil => exact ⟨stdout, rfl⟩
  | cons file rest ih =>
      have written := run_change stdout stderr calls (receives.writeFile_eq file.2)
      rcases run_sayIf verbose stdout stderr calls ("  " ++ file.1)
        (tree.put (directory ++ [file.1]) (.text file.2)) with ⟨between, said⟩
      rcases ih between (receives.put file.2) with ⟨last, others⟩
      refine ⟨last, ?_⟩
      rw [writeFiles, run_bind written, run_bind said]
      exact others

/-- The files before the one that is refused are written, and it stops the rest. -/
theorem run_writeFiles_of_refuses (leads : tree.LeadsTo directory)
    (canonical : Canonical directory) {file : String × String} (member : file ∈ files)
    (refuses : tree.Refuses directory file.1) :
    ∃ error left, writeFiles verbose directory files ⟨tree, stdout, stderr, calls⟩ =
      .error (.crash (.file error)) left := by
  induction files generalizing tree stdout with
  | nil => cases member
  | cons first rest ih =>
      rw [writeFiles]
      by_cases blocked : tree.Refuses directory first.1
      · have failed := run_change_of_error stdout stderr calls
          (Change.writeFile_of_refuses leads canonical blocked first.2)
        exact ⟨_, _, run_bind_of_error failed⟩
      -- The first file is written, which does not make room for the one that is refused.
      have later : file ∈ rest := by
        rcases List.mem_cons.mp member with rfl | later
        · exact absurd refuses blocked
        · exact later
      have receives := Tree.receives_of_not_refuses leads canonical blocked
      have written := run_change stdout stderr calls (receives.writeFile_eq first.2)
      rcases run_sayIf verbose stdout stderr calls ("  " ++ first.1)
        (tree.put (directory ++ [first.1]) (.text first.2)) with ⟨between, said⟩
      rw [run_bind written, run_bind said]
      exact ih between (receives.put first.2).leads later (refuses.put blocked)

end QueryPrep.CommandLine
