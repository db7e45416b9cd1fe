import QueryPrep.Proofs.Files.Removal
import QueryPrep.Proofs.Relay.Preparation
import QueryPrep.Relay.Compiler

/-!
# What a compilation leaves behind

A tool may do anything: it may be missing, refuse to start, run out of time or exit with any code,
it may write any bytes, and it may leave any tree in the place of the one that it has found. A
compilation starts it once if its workspace could be prepared, reports each failure that it can read
as such, and takes its artifacts from the tree that the tool has left. The workspace is gone in the
end.

There are limits to this. What is no text cannot be read, so a tool that writes such bytes to its
streams, or leaves them in an artifact, ends the compilation in the same unforeseen way whether it
has failed or not. And only a directory is removed in the end: a plain file stays, if the tool has
put one in the place of the workspace.
-/

namespace QueryPrep.Relay

open QueryPrep.Files QueryPrep.Source QueryPrep.Text

namespace ToolOutcome

/-- The tool has not done its work: it is missing, takes too long or says so by its code. -/
def Fails : ToolOutcome → Prop
  | .missing => True
  | .unstarted _ => False
  | .timedOut => True
  | .exited code _ _ => code ≠ 0

/-- What the tool has written to its two streams can be read, if it has come to an end at all. -/
def Readable : ToolOutcome → Prop
  | .exited _ stdout stderr => Legible stdout ∧ Legible stderr
  | _ => True

/-- What is read of the two streams: their texts, or nothing unless the tool has ended by itself. -/
def Shows : ToolOutcome → String → String → Prop
  | .exited _ stdout stderr, output, errors => Reads stdout output ∧ Reads stderr errors
  | _, output, errors => output = "" ∧ errors = ""

end ToolOutcome

/-- The result of a compilation, or the error that it ends with. -/
def answer : EStateM.Result CompileError Session CompileResult → Except CompileError CompileResult
  | .ok result _ => .ok result
  | .error error _ => .error error

/-- The session after a compilation. -/
def sessionAfter : EStateM.Result CompileError Session CompileResult → Session
  | .ok _ session => session
  | .error _ session => session

/-- The same host with a tool to run commands with. -/
def Host.running (host : Host) (tool : Tool) : Host :=
  { host with runner := tool.runner }

/--
What is guaranteed of the answer of a compilation, given the outcome of its tool, the tree that the
tool has left and the steps that lead to the artifacts.
-/
structure Judged (outcome : ToolOutcome) (left : Tree) (steps : List String)
    (answer : Except CompileError CompileResult) : Prop where
  failed_iff : outcome.Readable → ((∃ reason, answer = .error (.tool reason)) ↔ outcome.Fails)
  reported : ∀ reason, answer = .error (.tool reason) →
    outcome.Fails ∧ outcome.Shows reason.stdout reason.stderr
  unstarted : ∀ mishap, outcome = .unstarted mishap → answer = .error (.mishap mishap)
  unreadable : ¬ outcome.Readable → answer = .error (.mishap .undecodable)
  collected : ∀ stdout stderr output errors, outcome = .exited 0 stdout stderr →
    Reads stdout output → Reads stderr errors → left.AllLegible steps →
      ∃ artifacts, answer = .ok ⟨output, errors, artifacts⟩ ∧ left.ListsFiles steps artifacts
  illegible : ∀ stdout stderr, outcome = .exited 0 stdout stderr → outcome.Readable →
    ¬ left.AllLegible steps → answer = .error (.mishap .undecodable)

/--
What is guaranteed of a compilation with a workspace that has been made, given the tree that it has
been made in, the session before and after it and its answer.
-/
structure Compiled (compiler : Compiler) (host : Host) (tool : Tool) (schema operations : String)
    (made : Tree) (before after : Session) (answer : Except CompileError CompileResult) :
    Prop where
  removed : after.tree.isDirectory host.place = false
  unsplit : ∀ error, splitDefinitions operations = .error error →
    answer = .error (.workspace (.split error)) ∧ after.calls = before.calls
  refused : ∀ error left,
    prepareWorkspace compiler.config host.medium host.place schema operations made =
      .error error left →
        answer = .error (.workspace error) ∧ after.calls = before.calls ∧
          left.Clears host.place after.tree ∧ left.find? host.place = some .directory
  started : ∀ files workspace,
    prepareWorkspace compiler.config host.medium host.place schema operations made =
      .ok files workspace →
        after.calls = before.calls ++ [⟨compiler.command, compiler.timeout, workspace⟩]
  cleared : ∀ files workspace,
    prepareWorkspace compiler.config host.medium host.place schema operations made =
      .ok files workspace →
        (tool.start compiler.command host.place workspace).2.Clears host.place after.tree
  judged : ∀ files workspace,
    prepareWorkspace compiler.config host.medium host.place schema operations made =
      .ok files workspace →
        Judged (tool.start compiler.command host.place workspace).1
          (tool.start compiler.command host.place workspace).2
          (stepsFrom host.place compiler.config.artifactDirectory) answer

namespace Compiler

section Artifacts

variable {files : List (String × ByteArray)} {artifacts : List (String × String)}
variable {file : String × ByteArray} {tree : Tree} {steps : List String}

theorem mapM_readArtifact_cons_eq_ok_iff :
    (file :: files).mapM readArtifact = .ok artifacts ↔
      ∃ content others, Reads file.2 content ∧ files.mapM readArtifact = .ok others ∧
        artifacts = (file.1, content) :: others := by
  rw [List.mapM_cons, readArtifact]
  cases read : readText? file.2 with
  | none =>
      have illegible := readText?_eq_none_iff.mp read
      constructor
      · rintro ⟨⟩
      · rintro ⟨content, others, reads, _⟩
        exact absurd ⟨content, reads⟩ illegible
  | some content =>
      have unique {other : String} : Reads file.2 other ↔ content = other := by
        rw [← readText?_eq_some_iff, read, Option.some.injEq]
      cases files.mapM readArtifact with
      | error mishap => simp [bind, Except.bind]
      | ok others => simp [bind, Except.bind, pure, Except.pure, unique, eq_comm]

theorem map_fst_of_mapM_readArtifact (read : files.mapM readArtifact = .ok artifacts) :
    artifacts.map Prod.fst = files.map Prod.fst := by
  induction files generalizing artifacts with
  | nil =>
      cases read
      rfl
  | cons file rest ih =>
      rcases mapM_readArtifact_cons_eq_ok_iff.mp read with ⟨content, others, _, later, rfl⟩
      rw [List.map_cons, List.map_cons, ih later]

theorem mem_of_mapM_readArtifact (read : files.mapM readArtifact = .ok artifacts)
    {name content : String} :
    (name, content) ∈ artifacts ↔ ∃ bytes, (name, bytes) ∈ files ∧ Reads bytes content := by
  induction files generalizing artifacts with
  | nil =>
      cases read
      simp
  | cons file rest ih =>
      rcases mapM_readArtifact_cons_eq_ok_iff.mp read with ⟨text, others, reads, later, rfl⟩
      rcases file with ⟨first, raw⟩
      have unique {other : String} : Reads raw other ↔ other = text := by
        rw [← readText?_eq_some_iff, readText?_eq_some_iff.mpr reads, Option.some.injEq, eq_comm]
      simp only [List.mem_cons, ih later, Prod.mk.injEq, or_and_right, exists_or, and_assoc,
        exists_and_left, exists_eq_left, unique]

/-- All files are read, unless one of them cannot be. -/
theorem mapM_readArtifact_cases (files : List (String × ByteArray)) :
    ((∀ file ∈ files, Legible file.2) ∧ ∃ artifacts, files.mapM readArtifact = .ok artifacts) ∨
    ((∃ file ∈ files, ¬ Legible file.2) ∧ files.mapM readArtifact = .error .undecodable) := by
  induction files with
  | nil => exact .inl ⟨by simp, [], rfl⟩
  | cons file rest ih =>
      rw [List.mapM_cons, readArtifact]
      cases read : readText? file.2 with
      | none => exact .inr ⟨⟨file, List.mem_cons_self, readText?_eq_none_iff.mp read⟩, rfl⟩
      | some content =>
          rcases ih with ⟨legible, artifacts, others⟩ | ⟨⟨other, member, illegible⟩, others⟩
          · refine .inl ⟨?_, (file.1, content) :: artifacts, by rw [others]; rfl⟩
            intro other member
            rcases List.mem_cons.mp member with rfl | later
            · exact ⟨content, readText?_eq_some_iff.mp read⟩
            · exact legible other later
          · exact .inr ⟨⟨other, List.mem_cons_of_mem _ member, illegible⟩, by rw [others]; rfl⟩

theorem listsFiles_of_collectArtifacts (collected : collectArtifacts steps tree = .ok artifacts) :
    tree.ListsFiles steps artifacts := by
  unfold collectArtifacts at collected
  split at collected
  case h_1 error walked =>
    cases collected
    constructor <;> simp [walked]
  case h_2 path walked =>
    split at collected
    case isTrue found =>
      constructor
      case ordered =>
        rw [map_fst_of_mapM_readArtifact collected]
        exact Tree.pairwise_filesIn
      case mem_iff =>
        intro name content
        simp only [mem_of_mapM_readArtifact collected, Tree.mem_filesIn_iff, walked,
          Except.ok.injEq, exists_and_left, exists_eq_left', found, true_and]
    case isFalse different =>
      cases collected
      constructor
      case ordered => exact List.Pairwise.nil
      case mem_iff =>
        intro name content
        simp [walked, different]

theorem collectArtifacts_cases (steps : List String) (tree : Tree) :
    (tree.AllLegible steps ∧ ∃ artifacts, collectArtifacts steps tree = .ok artifacts) ∨
    (¬ tree.AllLegible steps ∧ collectArtifacts steps tree = .error .undecodable) := by
  unfold collectArtifacts
  cases walked : tree.walk [] steps with
  | error error => exact .inl ⟨by simp [Tree.AllLegible, walked], [], rfl⟩
  | ok path =>
      by_cases found : tree.find? path = some .directory
      case neg =>
        refine .inl ⟨?_, [], if_neg found⟩
        intro directory name bytes reached isDirectory
        cases walked.symm.trans reached
        exact absurd isDirectory found
      simp only [found, if_true]
      rcases mapM_readArtifact_cases (tree.filesIn path) with ⟨legible, read⟩ | ⟨illegible, read⟩
      · refine .inl ⟨?_, read⟩
        intro directory name bytes reached _ present
        cases walked.symm.trans reached
        exact legible (name, bytes) (Tree.mem_filesIn_iff.mpr present)
      · refine .inr ⟨?_, read⟩
        intro legible
        rcases illegible with ⟨⟨name, bytes⟩, member, illegible⟩
        exact illegible (legible path name bytes walked found (Tree.mem_filesIn_iff.mp member))

end Artifacts

section Judgements

variable {compiler : Compiler} {outcome : ToolOutcome} {left : Tree} {steps : List String}

/-- The answer of a compilation, given how its command has ended and what tree it has left. -/
def conclude (compiler : Compiler) (steps : List String) (ending : Ending) (left : Tree) :
    Except CompileError CompileResult :=
  match compiler.judge ending with
  | .error error => .error error
  | .ok (stdout, stderr) =>
    match collectArtifacts steps left with
    | .error mishap => .error (.mishap mishap)
    | .ok artifacts => .ok ⟨stdout, stderr, artifacts⟩

/-- A tool that has come to an end by itself has written two texts, or something else. -/
theorem ending_exited_cases (command : List String) (code : Int) (stdout stderr : ByteArray) :
    (∃ output errors, Reads stdout output ∧ Reads stderr errors ∧
      (ToolOutcome.exited code stdout stderr).ending command = .completed code output errors) ∨
    (¬ (Legible stdout ∧ Legible stderr) ∧
      (ToolOutcome.exited code stdout stderr).ending command = .broken .undecodable) := by
  cases output : readText? stdout with
  | none =>
      refine .inr ⟨fun legible => readText?_eq_none_iff.mp output legible.1, ?_⟩
      simp [ToolOutcome.ending, output]
  | some output' =>
      cases errors : readText? stderr with
      | none =>
          refine .inr ⟨fun legible => readText?_eq_none_iff.mp errors legible.2, ?_⟩
          simp [ToolOutcome.ending, errors]
      | some errors' =>
          refine .inl ⟨output', errors', readText?_eq_some_iff.mp output,
            readText?_eq_some_iff.mp errors, ?_⟩
          simp [ToolOutcome.ending, output, errors]

/-- A failure that is reported as such. -/
theorem judged_of_fails {reason : ToolError} (fails : outcome.Fails) (readable : outcome.Readable)
    (shows_ : outcome.Shows reason.stdout reason.stderr) :
    Judged outcome left steps (.error (.tool reason)) := by
  constructor
  case failed_iff => exact fun _ => ⟨fun _ => fails, fun _ => ⟨reason, rfl⟩⟩
  case reported =>
    intro other same
    cases same
    exact ⟨fails, shows_⟩
  case unstarted =>
    rintro mishap rfl
    exact fails.elim
  case unreadable => exact fun unreadable => absurd readable unreadable
  case collected =>
    rintro stdout stderr output errors rfl
    exact absurd rfl fails
  case illegible =>
    rintro stdout stderr rfl
    exact absurd rfl fails

theorem judged_of_unstarted (mishap : Mishap) :
    Judged (.unstarted mishap) left steps (.error (.mishap mishap)) := by
  constructor <;> simp [ToolOutcome.Fails, ToolOutcome.Readable]

/-- Streams that nobody can read. -/
theorem judged_of_unreadable {code : Int} {stdout stderr : ByteArray}
    (unreadable : ¬ (Legible stdout ∧ Legible stderr)) :
    Judged (.exited code stdout stderr) left steps (.error (.mishap .undecodable)) := by
  constructor
  case failed_iff => exact fun readable => absurd readable unreadable
  case reported => simp
  case unstarted => simp
  case unreadable => exact fun _ => rfl
  case collected =>
    intro other others output errors same reads readsErrors
    cases same
    exact absurd ⟨⟨output, reads⟩, ⟨errors, readsErrors⟩⟩ unreadable
  case illegible => exact fun _ _ _ _ _ => rfl

theorem judged_of_illegible {stdout stderr : ByteArray} (illegible : ¬ left.AllLegible steps) :
    Judged (.exited 0 stdout stderr) left steps (.error (.mishap .undecodable)) := by
  constructor
  case failed_iff => simp [ToolOutcome.Fails]
  case reported => simp
  case unstarted => simp
  case unreadable => exact fun _ => rfl
  case collected => exact fun _ _ _ _ _ _ _ legible => absurd legible illegible
  case illegible => exact fun _ _ _ _ _ => rfl

/-- A tool that has succeeded, with artifacts that can all be read. -/
theorem judged_of_collected {stdout stderr : ByteArray} {output errors : String}
    {artifacts : List (String × String)} (reads : Reads stdout output)
    (readsErrors : Reads stderr errors) (legible : left.AllLegible steps)
    (lists : left.ListsFiles steps artifacts) :
    Judged (.exited 0 stdout stderr) left steps (.ok ⟨output, errors, artifacts⟩) := by
  constructor
  case failed_iff => simp [ToolOutcome.Fails]
  case reported => simp
  case unstarted => simp
  case unreadable => exact fun unreadable => absurd ⟨⟨_, reads⟩, ⟨_, readsErrors⟩⟩ unreadable
  case collected =>
    intro other others text texts same readsText readsTexts _
    cases same
    rw [reads.unique readsText, readsErrors.unique readsTexts]
    exact ⟨artifacts, rfl, lists⟩
  case illegible => exact fun _ _ _ _ illegible => absurd legible illegible

theorem judged_conclude (compiler : Compiler) (command : List String) (outcome : ToolOutcome)
    (left : Tree) (steps : List String) :
    Judged outcome left steps (compiler.conclude steps (outcome.ending command) left) := by
  cases outcome with
  | missing => exact judged_of_fails trivial trivial ⟨rfl, rfl⟩
  | unstarted mishap => exact judged_of_unstarted mishap
  | timedOut => exact judged_of_fails trivial trivial ⟨rfl, rfl⟩
  | exited code stdout stderr =>
      rcases ending_exited_cases command code stdout stderr with
        ⟨output, errors, reads, readsErrors, ended⟩ | ⟨unreadable, ended⟩
      case inr =>
        rw [ended]
        exact judged_of_unreadable unreadable
      rw [ended, conclude, judge]
      by_cases zero : code = 0
      case neg =>
        rw [if_neg zero]
        exact judged_of_fails zero ⟨⟨_, reads⟩, ⟨_, readsErrors⟩⟩ ⟨reads, readsErrors⟩
      rw [if_pos zero, zero]
      rcases collectArtifacts_cases steps left with ⟨legible, artifacts, collected⟩ |
        ⟨illegible, collected⟩
      · rw [collected]
        exact judged_of_collected reads readsErrors legible
          (listsFiles_of_collectArtifacts collected)
      · rw [collected]
        exact judged_of_illegible illegible

end Judgements

section Sessions

variable {compiler : Compiler} {host : Host} {schema operations : String}
variable {session made : Session} {files : List MergedFile} {workspace : Tree}

/-- A new directory is made for the workspace, or else all stays as it is. -/
theorem makePlace_cases (host : Host) (session : Session) :
    (∃ error, makePlace host session = .error (.workspace (.file error)) session) ∨
    (makePlace host session =
        .ok () { session with tree := session.tree.put host.place .directory } ∧
      session.tree.find? host.place = none ∧
      (session.tree.put host.place .directory).LeadsTo host.place) := by
  unfold makePlace
  simp only [bind, EStateM.bind, Medium.allow]
  cases host.medium host.place with
  | some error => exact .inl ⟨error, rfl⟩
  | none =>
      rcases Change.makeDirectory_cases session.tree host.canonical with ⟨error, failed⟩ |
        ⟨succeeds, missing, leads⟩
      · exact .inl ⟨error, by simp only [failed]⟩
      · exact .inr ⟨by simp only [succeeds], missing, leads⟩

theorem compile_of_unmade {error : CompileError}
    (unmade : makePlace host session = .error error session) (compiler : Compiler)
    (schema operations : String) :
    compiler.compile host schema operations session = .error error session := by
  simp [compile, bind, EStateM.bind, unmade]

theorem compile_of_refused {error : WorkspaceError} (makes : makePlace host session = .ok () made)
    (refused : prepareWorkspace compiler.config host.medium host.place schema operations made.tree =
      .error error workspace) :
    ∃ events, compiler.compile host schema operations session =
      .error (.workspace error) ⟨workspace.removeDirectory host.place, made.calls, events⟩ := by
  refine ⟨made.events ++ prepareEvents host.label operations (.error error workspace), ?_⟩
  simp [compile, bind, EStateM.bind, makes, compileInside, prepare, refused, discard]

/-- Once there is a workspace, the tool is started and all else depends on what it does. -/
theorem compile_of_prepared (makes : makePlace host session = .ok () made)
    (prepared : prepareWorkspace compiler.config host.medium host.place schema operations
      made.tree = .ok files workspace) :
    answer (compiler.compile host schema operations session) =
      compiler.conclude (stepsFrom host.place compiler.config.artifactDirectory)
        (host.runner compiler.command host.place workspace).1
        (host.runner compiler.command host.place workspace).2 ∧
    ∃ events, sessionAfter (compiler.compile host schema operations session) =
      ⟨(host.runner compiler.command host.place workspace).2.removeDirectory host.place,
        made.calls ++ [⟨compiler.command, compiler.timeout, workspace⟩], events⟩ := by
  generalize ran : host.runner compiler.command host.place workspace = after
  rcases after with ⟨ending, left⟩
  simp only [compile, bind, EStateM.bind, makes, compileInside, prepare, prepared, runTool, ran,
    conclude]
  cases compiler.judge ending with
  | error error => exact ⟨rfl, _, rfl⟩
  | ok output =>
      simp only [collect]
      cases collectArtifacts (stepsFrom host.place compiler.config.artifactDirectory) left with
      | error mishap => exact ⟨rfl, _, rfl⟩
      | ok artifacts => exact ⟨rfl, _, rfl⟩

/-- Artifacts are collected from a listing, so each name occurs once. -/
theorem pairwise_artifacts {result : CompileResult}
    (succeeds : answer (compiler.compile host schema operations session) = .ok result) :
    (result.artifacts.map Prod.fst).Pairwise (· < ·) := by
  rcases makePlace_cases host session with ⟨error, unmade⟩ | ⟨makes, _, _⟩
  · rw [compile_of_unmade unmade] at succeeds
    cases succeeds
  cases prepared : prepareWorkspace compiler.config host.medium host.place schema operations
      (session.tree.put host.place .directory) with
  | error error left =>
      rcases compile_of_refused makes prepared with ⟨events, compiled⟩
      rw [compiled] at succeeds
      cases succeeds
  | ok files workspace =>
      rw [(compile_of_prepared makes prepared).1, conclude] at succeeds
      split at succeeds
      case h_1 => cases succeeds
      case h_2 =>
        split at succeeds
        case h_1 => cases succeeds
        case h_2 collected =>
          cases succeeds
          exact (listsFiles_of_collectArtifacts collected).ordered

end Sessions

section Guarantees

variable {compiler : Compiler} {host : Host} {tool : Tool} {schema operations : String}
variable {session made : Session} {files : List MergedFile} {workspace : Tree}

theorem compiled_of_refused {error : WorkspaceError}
    (makes : makePlace (host.running tool) session = .ok () made)
    (found : made.tree.find? host.place = some .directory) (below : host.place ≠ [])
    (calls : made.calls = session.calls)
    (refused : prepareWorkspace compiler.config host.medium host.place schema operations made.tree =
      .error error workspace) :
    Compiled compiler host tool schema operations made.tree session
      (sessionAfter (compiler.compile (host.running tool) schema operations session))
      (answer (compiler.compile (host.running tool) schema operations session)) := by
  have clears := Tree.clears_removeDirectory workspace host.canonical below
  have kept := find?_left_prepareWorkspace compiler.config host.medium host.place schema operations
    found
  rw [refused] at kept
  rcases compile_of_refused makes refused with ⟨events, compiled⟩
  rw [compiled]
  constructor
  case removed => exact clears.noDirectory
  case unsplit =>
    intro reason unsplit
    rw [prepareWorkspace_of_unsplit unsplit] at refused
    cases refused
    exact ⟨rfl, calls⟩
  case refused =>
    intro other left same
    cases refused.symm.trans same
    exact ⟨rfl, calls, clears, kept⟩
  all_goals
    intro files prepared succeeds
    cases refused.symm.trans succeeds

theorem compiled_of_prepared (makes : makePlace (host.running tool) session = .ok () made)
    (below : host.place ≠ []) (calls : made.calls = session.calls)
    (prepared : prepareWorkspace compiler.config host.medium host.place schema operations
      made.tree = .ok files workspace) :
    Compiled compiler host tool schema operations made.tree session
      (sessionAfter (compiler.compile (host.running tool) schema operations session))
      (answer (compiler.compile (host.running tool) schema operations session)) := by
  have clears := Tree.clears_removeDirectory
    (tool.start compiler.command host.place workspace).2 host.canonical below
  rcases compile_of_prepared makes prepared with ⟨answered, events, compiled⟩
  rw [answered, compiled]
  constructor
  case removed => exact clears.noDirectory
  case unsplit =>
    intro reason unsplit
    rw [prepareWorkspace_of_unsplit unsplit] at prepared
    cases prepared
  case refused =>
    intro error left refused
    cases prepared.symm.trans refused
  all_goals
    intro others other same
    cases prepared.symm.trans same
  case started => rw [← calls]
  case cleared => exact clears
  case judged => exact judged_conclude compiler _ _ _ _

/--
If no directory can be made for the workspace, nothing else is done. In all other cases the tool is
started once or, if the workspace cannot be prepared, not at all, and whatever the tool does the
answer says what has become of it, as far as that can be read.
-/
theorem compiled_compile (compiler : Compiler) (tool : Tool) (host : Host)
    (schema operations : String) (session : Session) :
    match makePlace (host.running tool) session with
    | .error error left => left = session ∧
        compiler.compile (host.running tool) schema operations session = .error error session
    | .ok () made => Compiled compiler host tool schema operations made.tree session
        (sessionAfter (compiler.compile (host.running tool) schema operations session))
        (answer (compiler.compile (host.running tool) schema operations session)) := by
  rcases makePlace_cases (host.running tool) session with ⟨error, unmade⟩ | ⟨makes, missing, leads⟩
  · rw [unmade]
    exact ⟨rfl, compile_of_unmade unmade compiler schema operations⟩
  have below : host.place ≠ [] := Tree.below_of_missing missing
  rw [makes]
  cases prepared : prepareWorkspace compiler.config host.medium host.place schema operations
      (session.tree.put host.place .directory) with
  | error error left =>
      exact compiled_of_refused makes (leads host.place List.prefix_rfl) below rfl prepared
  | ok files workspace => exact compiled_of_prepared makes below rfl prepared

end Guarantees

section Limits

def sampleCompiler : Compiler := ⟨["relay-compiler"], .default, none⟩

def sampleHost : Host where
  runner command _ tree := (.notFound (command.headD ""), tree)
  medium := .unlimited
  place := ["workspace"]
  canonical := by decide
  label := "/workspace"

/-- A byte that no text holds in its encoding. -/
def strayByte : ByteArray := ⟨#[0xff]⟩

/-- A tool that fails and says why in a way that nobody can read. -/
def garblingTool : Tool := fun _ _ tree => (.exited 1 .empty strayByte, tree)

/-- A tool that succeeds and leaves an artifact that is no text. -/
def drawingTool : Tool := fun _ place tree =>
  (.exited 0 .empty .empty, tree.put (place ++ ["output", "A.png"]) (.file strayByte))

/-- A tool that succeeds and leaves a plain file in the place of the workspace. -/
def usurpingTool : Tool := fun _ place tree =>
  (.exited 0 .empty .empty, (tree.remove place).put place (.text "left behind"))

/-- A small query is compiled with a tool. -/
def sampleRun (tool : Tool) : EStateM.Result CompileError Session CompileResult :=
  sampleCompiler.compile (sampleHost.running tool) "type Query \x7b a: Int \x7d"
    "query A \x7b a \x7d" (.start .empty)

/--
A tool that fails is not always reported as such, one that succeeds does not always lead to a
result, and there may be something left in the place of the workspace.
-/
theorem not_reported_and_not_collected_and_not_gone :
    (¬ ∀ tool : Tool, (∀ command place tree, (tool command place tree).1.Fails) →
      ∃ reason, answer (sampleRun tool) = .error (.tool reason)) ∧
    (¬ ∀ tool : Tool, (∀ command place tree,
      (tool command place tree).1 = .exited 0 .empty .empty) →
        ∃ result, answer (sampleRun tool) = .ok result) ∧
    ¬ ∀ tool : Tool, ∃ error,
      (sessionAfter (sampleRun tool)).tree.nodeAt sampleHost.place = .error error := by
  refine ⟨?_, ?_, ?_⟩
  · intro reported
    have garbled : answer (sampleRun garblingTool) = .error (.mishap .undecodable) := by
      decide +kernel
    have fails : (1 : Int) ≠ 0 := by decide
    rcases reported garblingTool fun _ _ _ => fails with ⟨reason, same⟩
    cases garbled.symm.trans same
  · intro collected
    have drawn : answer (sampleRun drawingTool) = .error (.mishap .undecodable) := by
      decide +kernel
    rcases collected drawingTool fun _ _ _ => rfl with ⟨result, same⟩
    cases drawn.symm.trans same
  · intro gone
    have left : (sessionAfter (sampleRun usurpingTool)).tree.nodeAt sampleHost.place =
        .ok (.text "left behind") := by decide +kernel
    rcases gone usurpingTool with ⟨error, same⟩
    cases left.symm.trans same

end Limits

end Compiler

end QueryPrep.Relay
