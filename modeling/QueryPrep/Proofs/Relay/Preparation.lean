import QueryPrep.Proofs.Files.Growth
import QueryPrep.Relay.Workspace

/-!
# What preparing a workspace changes

A workspace is prepared by putting directories and files into the tree, so no directory is lost,
even if the preparation fails half-way. Where the nodes are put depends on the paths of the
configuration. Operations that cannot be split change nothing at all.
-/

namespace QueryPrep.Relay

open QueryPrep.Files QueryPrep.Files.Tree QueryPrep.Source

variable {within : Path → Prop} {config : Config} {place : Path} {directory : List String}
variable {files : List MergedFile} {schema operations : String} {tree : Tree}

theorem prepareWorkspace_of_unsplit {error : SplitError}
    (unsplit : splitDefinitions operations = .error error) (config : Config) (medium : Medium)
    (place : Path) (schema : String) (tree : Tree) :
    prepareWorkspace config medium place schema operations tree = .error (.split error) tree := by
  simp [prepareWorkspace, sourceFiles, unsplit, bind, Except.bind]

theorem grows_writeSources (medium : Medium)
    (permitted : ∀ file ∈ files, ∀ (after : Tree) path,
      after.walk [] (directory ++ [file.filename]) = .ok path → within path) :
    Grows within tree (Change.left (writeSources medium directory files tree)) := by
  induction files generalizing tree with
  | nil => exact .refl
  | cons file rest ih =>
      apply Change.grows_bind (medium.grows_writeFile (permitted file List.mem_cons_self))
      intro after _
      exact ih fun other member => permitted other (List.mem_cons_of_mem _ member)

/-- Directories and files are put where their steps lead to. -/
theorem grows_writeWorkspace (medium : Medium)
    (directories : ∀ text ∈ [config.src, config.artifactDirectory], ∀ after,
      Grows within tree after →
        Grows within after (Change.left (Change.ensureDirectories (stepsFrom place text) after)))
    (sources : ∀ file ∈ files, ∀ (after : Tree) path,
      after.walk [] (stepsFrom place config.src ++ [file.filename]) = .ok path → within path)
    (others : ∀ steps ∈ [stepsFrom place config.schemaPath, place ++ [configFilename]],
      ∀ (after : Tree) path, after.walk [] steps = .ok path → within path) :
    Grows within tree (Change.left (writeWorkspace config medium place schema files tree)) := by
  unfold writeWorkspace
  apply Change.grows_bind
  · exact medium.grows_ensureDirectories (directories _ (by simp))
  intro first grows
  apply Change.grows_bind
  · apply medium.grows_ensureDirectories
    exact fun after more => directories _ (by simp) _ (grows.trans more)
  intro second _
  apply Change.grows_bind (grows_writeSources medium sources)
  intro third _
  apply Change.grows_bind (medium.grows_writeFile (others _ (by simp)))
  intro fourth _
  exact medium.grows_writeFile (others _ (by simp))

theorem grows_prepareWorkspace (medium : Medium)
    (writes : ∀ files, sourceFiles config operations = .ok files →
      Grows within tree (Change.left (writeWorkspace config medium place schema files tree))) :
    Grows within tree
      (Change.left (prepareWorkspace config medium place schema operations tree)) := by
  unfold prepareWorkspace
  cases sources : sourceFiles config operations with
  | error error => exact .refl
  | ok files =>
      have grows := writes files sources
      dsimp only
      cases wrote : writeWorkspace config medium place schema files tree with
      | ok value after => rwa [wrote] at grows
      | error error after => rwa [wrote] at grows

/-- Whatever the paths of the configuration are, a directory stays a directory. -/
theorem find?_left_prepareWorkspace {path : Path} (config : Config) (medium : Medium)
    (place : Path) (schema operations : String) (found : tree.find? path = some .directory) :
    (Change.left (prepareWorkspace config medium place schema operations tree)).find? path =
      some .directory := by
  have grows : Grows (fun _ => True) tree
      (Change.left (prepareWorkspace config medium place schema operations tree)) := by
    apply grows_prepareWorkspace
    intro files _
    apply grows_writeWorkspace
    · exact fun _ _ after _ => Change.grows_ensureAbove _ after
    · exact fun _ _ _ _ _ => trivial
    · exact fun _ _ _ _ _ => trivial
  exact grows.find?_directory found

end QueryPrep.Relay
