import QueryPrep.Proofs.Relay.Compilation
import QueryPrep.Proofs.Relay.Layout

/-!
# Compilations that leave no trace

A tool that keeps to its workspace can do there what it likes: with the default paths, all files are
as they were before once the workspace is removed.
-/

namespace QueryPrep.Relay

open QueryPrep.Files

/--
A way to run commands that changes nothing outside the directory that they are started in. That
directory may be gone afterwards, but there is no file in its place.
-/
structure Runner.Confined (runner : Runner) (place : Path) : Prop where
  outside : ∀ command tree, (runner command place tree).2.remove place = tree.remove place
  leaves : ∀ command tree, tree.find? place = some .directory →
    (runner command place tree).2.find? place = some .directory ∨
      (runner command place tree).2.Vacant place

/-- Where a tool keeps to its workspace, so does running commands with it. -/
theorem Tool.confined_runner {tool : Tool} {place : Path}
    (outside : ∀ command tree, (tool command place tree).2.remove place = tree.remove place)
    (leaves : ∀ command tree, tree.find? place = some .directory →
      (tool command place tree).2.find? place = some .directory ∨
        (tool command place tree).2.Vacant place) : tool.runner.Confined place := by
  constructor
  case outside =>
    intro command tree
    unfold Tool.runner Tool.start
    cases obstacle? command with
    | some mishap => rfl
    | none => exact outside command tree
  case leaves =>
    intro command tree found
    unfold Tool.runner Tool.start
    cases obstacle? command with
    | some mishap => exact .inl found
    | none => exact leaves command tree found

namespace Compiler

variable {compiler : Compiler} {host : Host} {language : Language} {session : Session}

theorem tree_sessionAfter_compile (confined : host.runner.Confined host.place)
    (vacant : session.tree.Vacant host.place) (default : compiler.config = .forLanguage language)
    (schema operations : String) :
    (sessionAfter (compiler.compile host schema operations session)).tree = session.tree := by
  rcases makePlace_cases host session with ⟨error, unmade⟩ | ⟨makes, missing, leads⟩
  · rw [compile_of_unmade unmade]
    rfl
  have below := Tree.below_of_missing missing
  have emptied : (session.tree.put host.place .directory).remove host.place = session.tree := by
    rw [Tree.remove_put List.prefix_rfl below, vacant.remove_eq]
  have grows := grows_prepareWorkspace_forLanguage leads host.canonical language host.medium schema
    operations
  rw [← default] at grows
  have leadsAfter := grows.leadsTo leads
  have unchanged := grows.remove_eq.trans emptied
  cases prepared : prepareWorkspace compiler.config host.medium host.place schema operations
      (session.tree.put host.place .directory) with
  | error error left =>
      rw [prepared] at leadsAfter unchanged
      rcases compile_of_refused makes prepared with ⟨events, compiled⟩
      rw [compiled]
      exact (Tree.removeDirectory_eq_remove leadsAfter host.canonical).trans unchanged
  | ok files workspace =>
      rw [prepared] at leadsAfter unchanged
      rcases compile_of_prepared makes prepared with ⟨_, events, compiled⟩
      rw [compiled]
      have found := leadsAfter host.place List.prefix_rfl
      have removed := Tree.removeDirectory_eq_of_remove_eq host.canonical below leadsAfter
        (confined.outside compiler.command workspace)
        (confined.leaves compiler.command workspace found)
      exact removed.trans unchanged

end Compiler

end QueryPrep.Relay
