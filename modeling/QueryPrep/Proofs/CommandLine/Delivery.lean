import QueryPrep.Proofs.CommandLine.Work
import QueryPrep.Proofs.Text.PlainText

/-!
# What a call leaves behind

The work of a call is done before its first file is written. If the work fails, all files are as
they were before. If it succeeds, there is one thing to hand over: a text for the standard output,
or files for a directory, and nothing else is touched.

Text on the standard output loses its control sequences, and a document may hold some in its block
strings. The same document arrives complete in an output file or in an envelope.
-/

namespace QueryPrep.CommandLine

open QueryPrep.Files QueryPrep.Inline QueryPrep.Relay QueryPrep.Source QueryPrep.Text

section Outcomes

/-- A failure that is handled is told about: in an envelope, or else on the error output. -/
def Failure.Told (asJson : Bool) (failure : Failure) (console : Console) : Prop :=
  failure.crash? = none →
    if asJson then console.stdout = (Envelope.ofError failure.message).toJson ++ "\n"
    else ∃ earlier, console.stderr = earlier ++ plainText ("Error: " ++ failure.message) ++ "\n"

/--
What a call comes to, given what its work has come to. Files are stored if the tree accepts them,
and a text is shown without its control sequences, if it has any.
-/
inductive Delivers (tree : Tree) (asJson : Bool) (outcome : Outcome) :
    Except Failure Delivery → Prop
  | failed (failure : Failure) (console : Console)
      (ended : outcome = .finished 1 failure.crash? console) (unchanged : console.tree = tree)
      (told : failure.Told asJson console) : Delivers tree asJson outcome (.error failure)
  | shown (line : String) (console : Console) (ended : outcome = .finished 0 none console)
      (unchanged : console.tree = tree) (printed : console.stdout = plainText line ++ "\n")
      (complete : asJson = true ∨ Plain line → console.stdout = line ++ "\n") :
      Delivers tree asJson outcome (.ok (.shown line))
  | stored (directory : Path) (files : List (Path × String)) (console : Console)
      (accepted : tree.Accepts directory files) (ended : outcome = .finished 0 none console)
      (stores : tree.Stores directory files console.tree) :
      Delivers tree asJson outcome (.ok (.stored directory files))
  | refused (directory : Path) (files : List (Path × String)) (error : FileError)
      (console : Console) (refused : ¬ tree.Accepts directory files)
      (ended : outcome = .finished 1 (some (.file error)) console) :
      Delivers tree asJson outcome (.ok (.stored directory files))

/-- Files that the tree accepts are stored. -/
theorem Delivers.exists_stores {tree : Tree} {asJson : Bool} {outcome : Outcome} {directory : Path}
    {files : List (Path × String)}
    (delivers : Delivers tree asJson outcome (.ok (.stored directory files)))
    (accepts : tree.Accepts directory files) :
    ∃ console, outcome = .finished 0 none console ∧ tree.Stores directory files console.tree := by
  cases delivers with
  | stored _ _ console _ ended stores => exact ⟨console, ended, stores⟩
  | refused _ _ _ _ refused _ => exact absurd accepts refused

end Outcomes

section Commands

variable {surroundings : Surroundings} {tree : Tree} {verbose : Bool}
variable {stdout stderr : String} {calls : List ToolCall}

theorem delivers_failure (failure : Failure) (handled : failure.crash? = none) :
    Delivers tree false
      (conclude (.error (.failure failure.message) ⟨tree, stdout, stderr, calls⟩))
      (.error failure) := by
  apply Delivers.failed failure (Console.withError ⟨tree, stdout, stderr, calls⟩ _)
  case ended =>
    rw [handled]
    rfl
  case unchanged => rfl
  case told => exact fun _ => ⟨stderr, rfl⟩

theorem delivers_crash {asJson : Bool} (crash : Crash) :
    Delivers tree asJson (conclude (.error (.crash crash) ⟨tree, stdout, stderr, calls⟩))
      (.error (.unhandled crash)) := by
  apply Delivers.failed (.unhandled crash) ⟨tree, stdout, stderr, calls⟩
  case ended => rfl
  case unchanged => rfl
  case told =>
    intro handled
    cases handled

/-- An input file is read first, and all the rest depends on its text. -/
theorem delivers_input {asJson : Bool} {next : String → Action Unit}
    {work : String → Except Failure Delivery} (name : String)
    (follows : ∀ text,
      Delivers tree asJson (conclude (next text ⟨tree, stdout, stderr, calls⟩)) (work text)) :
    Delivers tree asJson
      (conclude ((readInput surroundings name >>= next) ⟨tree, stdout, stderr, calls⟩))
      (input surroundings tree name >>= work) := by
  cases read : inputText surroundings tree name with
  | error crash =>
      have failed : input surroundings tree name = .error (.unhandled crash) := by
        rw [input, read, Except.mapError]
      rw [run_bind_of_error (run_readInput_of_error _ _ _ read), failed]
      exact delivers_crash crash
  | ok text =>
      have succeeds : input surroundings tree name = .ok text := by
        rw [input, read, Except.mapError]
      rw [run_bind (run_readInput _ _ _ read), succeeds]
      exact follows text

theorem delivers_envelope (failure : Failure) (handled : failure.crash? = none) :
    Delivers tree true
      (conclude ((do
        say (Envelope.ofError failure.message).toJson
        throw .reported : Action Unit) ⟨tree, "", stderr, calls⟩))
      (.error failure) := by
  have passes := (Envelope.ofError failure.message).plain_toJson.plainText_eq
  generalize envelope : (Envelope.ofError failure.message).toJson = line at passes ⊢
  apply Delivers.failed failure ⟨tree, "" ++ plainText line ++ "\n", stderr, calls⟩
  case ended =>
    rw [handled]
    rfl
  case unchanged => rfl
  case told => simp [Failure.Told, envelope, passes]

theorem delivers_shown {asJson : Bool} {text : String} (plain : asJson = true → Plain text) :
    Delivers tree asJson (conclude (say text ⟨tree, "", stderr, calls⟩)) (.ok (.shown text)) := by
  apply Delivers.shown text ⟨tree, "" ++ plainText text ++ "\n", stderr, calls⟩
  case ended => rfl
  case unchanged => rfl
  case printed => simp
  case complete =>
    intro passes
    have isPlain : Plain text := passes.elim plain id
    simp [isPlain.plainText_eq]

/-- What happens once the directory has been made decides whether the files are stored. -/
theorem delivers_stored {asJson : Bool} {directory : Path} {files : List (String × String)}
    {action : Action Unit} (canonical : Canonical directory)
    (distinct : (files.map Prod.fst).Nodup)
    (writes : ∀ made : Tree, made.Receives directory (files.map Prod.fst) →
      ∃ last, action ⟨made, stdout, stderr, calls⟩ =
        .ok () ⟨made.putFiles directory files, last, stderr, calls⟩)
    (stops : ∀ made : Tree, made.LeadsTo directory →
      ∀ file ∈ files, made.Refuses directory file.1 →
        ∃ error left, action ⟨made, stdout, stderr, calls⟩ = .error (.crash (.file error)) left) :
    Delivers tree asJson
      (conclude ((do
        change (Change.ensureDirectories directory)
        action : Action Unit) ⟨tree, stdout, stderr, calls⟩))
      (.ok (.stored directory (Tree.inDirectory directory files))) := by
  by_cases accepts : tree.Accepts directory (Tree.inDirectory directory files)
  case pos =>
    rcases accepts.exists_made canonical distinct with ⟨made, succeeds, receives, stores⟩
    rcases writes made receives with ⟨last, wrote⟩
    rw [run_bind (run_change _ _ _ succeeds), wrote]
    exact .stored _ _ _ accepts rfl stores
  case neg =>
    rcases Tree.exists_refused canonical accepts with ⟨error, left, failed⟩ |
      ⟨made, succeeds, leads, file, member, refuses⟩
    · rw [run_bind_of_error (run_change_of_error _ _ _ failed)]
      exact .refused _ _ error _ accepts rfl
    · rcases stops made leads file member refuses with ⟨error, left, failed⟩
      rw [run_bind (run_change _ _ _ succeeds), failed]
      exact .refused _ _ error left accepts rfl

/-- A single file, with a directory that is made for it. -/
theorem delivers_file {asJson : Bool} {path : Path} (text line : String)
    (canonical : Canonical path) :
    Delivers tree asJson
      (conclude ((do
        change (Change.ensureDirectories path.dropLast)
        change (Change.writeFile path text)
        sayIf verbose line : Action Unit) ⟨tree, stdout, stderr, calls⟩))
      (.ok (.stored path.dropLast [(path, text)])) := by
  by_cases root : path = []
  -- A path that leads back to the root names no file, and the root is never written.
  · subst root
    have refused : ¬ tree.Accepts [] [([], text)] :=
      fun accepts => accepts.free _ List.mem_cons_self rfl
    exact .refused _ _ .isDirectory _ refused rfl
  rw [← List.dropLast_append_getLast root] at canonical ⊢
  rw [List.dropLast_concat]
  generalize path.dropLast = directory at canonical ⊢
  generalize path.getLast root = name at canonical ⊢
  have above := canonical.of_prefix (List.prefix_append directory [name])
  have distinct : ([(name, text)].map Prod.fst).Nodup := List.nodup_singleton name
  apply delivers_stored above distinct
  case writes =>
    intro made receives
    have written := run_change stdout stderr calls (receives.writeFile_eq text)
    rw [run_bind written]
    exact run_sayIf verbose stdout stderr calls line _
  case stops =>
    intro made leads file member refuses
    rw [List.mem_singleton.mp member] at refuses
    have failed := Change.writeFile_of_refuses leads above refuses text
    exact ⟨_, _, run_bind_of_error (run_change_of_error stdout stderr calls failed)⟩

theorem delivers_deliver {asJson : Bool} {text : String} (output : Option String)
    (plain : asJson = true → Plain text) :
    Delivers tree asJson
      (conclude (deliver surroundings verbose output text ⟨tree, "", stderr, calls⟩))
      (.ok (.ofText surroundings.directory output text)) := by
  cases output with
  | none => exact delivers_shown plain
  | some name =>
      unfold deliver Delivery.ofText
      by_cases empty : name.isEmpty = true
      · simp only [empty, if_true]
        exact delivers_shown plain
      · simp only [empty, Bool.false_eq_true, if_false]
        exact delivers_file _ _ (canonical_normalize _)

theorem delivers_inline (operations : String) (output : Option String) (asJson strict : Bool) :
    Delivers tree asJson
      (conclude (runInline surroundings operations output asJson strict verbose ⟨tree, "", "", []⟩))
      (workInlining surroundings tree operations output asJson strict) := by
  apply delivers_input
  intro text
  rcases run_report verbose "" "" [] (textEvents (if strict then .strict else .lenient) text) tree
    with ⟨stderr, reported⟩
  rw [run_bind reported]
  cases inlineText (if strict then .strict else .lenient) text with
  | error error =>
      cases asJson with
      | true => exact delivers_envelope (.document error) rfl
      | false => exact delivers_failure (.document error) rfl
  | ok result =>
      apply delivers_deliver
      intro wanted
      rw [if_pos wanted]
      exact Envelope.plain_toJson _

theorem delivers_files {output : String} {files : List (String × String)} (line : String)
    (ordered : (files.map Prod.fst).Pairwise (· < ·)) :
    Delivers tree false
      (conclude ((do
        change (Change.ensureDirectories (normalize (stepsFrom surroundings.directory output)))
        writeFiles verbose (normalize (stepsFrom surroundings.directory output)) files
        say line : Action Unit) ⟨tree, stdout, stderr, calls⟩))
      (.ok (.ofFiles surroundings.directory output files)) := by
  have canonical := canonical_normalize (stepsFrom surroundings.directory output)
  apply delivers_stored canonical (ordered.imp ne_of_lt)
  case writes =>
    intro made receives
    rcases run_writeFiles verbose stdout stderr calls receives with ⟨listed, wrote⟩
    rw [run_bind wrote]
    exact run_say listed stderr calls line _
  case stops =>
    intro made leads file member refuses
    rcases run_writeFiles_of_refuses verbose stdout stderr calls leads canonical member refuses
      with ⟨error, left, failed⟩
    exact ⟨error, left, run_bind_of_error failed⟩

theorem delivers_split (operations output : String) (language : Language) :
    Delivers tree false
      (conclude (runSplit surroundings operations output language verbose ⟨tree, "", "", []⟩))
      (workSplitting surroundings tree operations output language) := by
  apply delivers_input
  intro text
  rcases run_report verbose "" "" [] (splitEvents text) tree with ⟨stderr, reported⟩
  rw [run_bind reported]
  cases splitDefinitions text with
  | error error => exact delivers_failure (.operations error) rfl
  | ok definitions =>
      have ordered := pairwise_filename_groupDefinitions language.extension definitions
      rw [← map_fst_namedContent] at ordered
      rcases run_sayIf verbose "" stderr [] ("Found " ++ toString definitions.length ++
        " definition(s)") tree with ⟨counted, said⟩
      dsimp only
      rw [run_bind said]
      exact delivers_files _ ordered

theorem delivers_stopCompiling (error : CompileError) :
    Delivers tree false (conclude (stopCompiling error ⟨tree, stdout, stderr, calls⟩))
      (.error (.ofCompileError error)) := by
  cases error with
  | workspace error =>
      cases error with
      | split error => exact delivers_failure (.operations error) rfl
      | file error => exact delivers_crash (.file error)
  | tool error =>
      unfold stopCompiling
      by_cases silent : error.stderr.isEmpty = true
      all_goals
        simp only [silent]
        exact delivers_failure (.tool error) rfl
  | mishap mishap => exact delivers_crash (.mishap mishap)

/-- The output of the tool is shown before its artifacts are stored. -/
theorem delivers_artifacts {output : String} {result : CompileResult} (line : String)
    (ordered : (result.artifacts.map Prod.fst).Pairwise (· < ·)) :
    Delivers tree false
      (conclude ((do
        unless result.stdout.isEmpty do
          sayIf verbose result.stdout
        change (Change.ensureDirectories (normalize (stepsFrom surroundings.directory output)))
        writeFiles verbose (normalize (stepsFrom surroundings.directory output)) result.artifacts
        say line : Action Unit) ⟨tree, stdout, stderr, calls⟩))
      (.ok (.ofFiles surroundings.directory output result.artifacts)) := by
  rcases run_sayIf verbose stdout stderr calls result.stdout tree with ⟨shown, said⟩
  by_cases silent : result.stdout.isEmpty = true
  · rw [if_pos silent]
    exact delivers_files line ordered
  · rw [if_neg silent, run_bind said]
    exact delivers_files line ordered

theorem delivers_compile (vacant : tree.Vacant surroundings.host.place)
    (confined : surroundings.host.runner.Confined surroundings.host.place)
    (schema operations output command : String) (language : Language) :
    Delivers tree false
      (conclude (runCompile surroundings schema operations output command language verbose
        ⟨tree, "", "", []⟩))
      (workCompiling surroundings tree schema operations output command language) := by
  unfold runCompile workCompiling
  cases made : Compiler.ofCommandLine command (.forLanguage language) none with
  | error error => exact delivers_crash (.shell error)
  | ok compiler =>
      rcases run_say "" "" [] "Compiling operations..." tree with ⟨stdout, announced⟩
      dsimp only
      rw [run_bind announced]
      apply delivers_input
      intro schema
      apply delivers_input
      intro operations
      have same := tree_runCompiler vacant confined (config_ofCommandLine made) schema operations
      have ordered {result : CompileResult} :
          (runCompiler surroundings compiler tree schema operations).1 = .ok result →
            (result.artifacts.map Prod.fst).Pairwise (· < ·) := by
        rw [runCompiler_eq]
        exact Compiler.pairwise_artifacts
      have looked : (get : Action Console) ⟨tree, stdout, "", []⟩ =
        .ok ⟨tree, stdout, "", []⟩ ⟨tree, stdout, "", []⟩ := rfl
      rw [run_bind looked]
      dsimp only
      generalize runCompiler surroundings compiler tree schema operations = ran at same ordered ⊢
      rcases ran with ⟨outcome, session⟩
      dsimp only at same
      have called : (modify fun console =>
          { console with tree := session.tree, calls := console.calls ++ session.calls } :
            Action Unit) ⟨tree, stdout, "", []⟩ = .ok () ⟨tree, stdout, "", session.calls⟩ := by
        rw [← same]
        rfl
      rcases run_report verbose stdout "" session.calls session.events tree with ⟨stderr, reported⟩
      dsimp only
      rw [run_bind called, run_bind reported]
      cases outcome with
      | error error => exact delivers_stopCompiling error
      | ok result => exact delivers_artifacts _ (ordered rfl)

/--
A proper call comes to what its work has come to. If the work has failed, every file is as it was
before and the program ends with an error. If there are files to store, these are stored and no
others are touched. A text for the standard output arrives there up to its control sequences.
-/
theorem run_delivers (surroundings : Surroundings) (tree : Tree) (arguments : List String)
    (invocation : Invocation)
    (proper : Invocation.read tree surroundings.directory arguments = some invocation)
    (contained : invocation.Contained surroundings tree) :
    Delivers tree invocation.asJson (run surroundings tree arguments)
      (work surroundings tree invocation) := by
  unfold run
  rw [proper]
  cases invocation with
  | inline operations output asJson strict verbose =>
      exact delivers_inline operations output asJson strict
  | split operations output language verbose => exact delivers_split operations output language
  | compile schema operations output command language verbose =>
      exact delivers_compile contained.1 contained.2 schema operations output command language

end Commands

section Sample

/-- A document with a control sequence in a block string. -/
def alertText : String :=
  "\x7b alert(text: \"\"\"\x1b[31mred\"\"\") \x7d"

/-- The same document as it is printed. -/
def printedAlertText : String :=
  "\x7b\n  alert(text: \"\"\"\x1b[31mred\"\"\")\n\x7d"

def alertTree : Tree :=
  (Tree.empty.put ["alert.graphql"] (.text alertText)).put ["schema.graphql"] (.text "type Query")

/-- A tool that finds nothing to complain about and leaves an artifact. -/
def alertTool : Tool := fun _ place tree =>
  (.exited 0 .empty .empty, tree.put (place ++ ["output", "Alert.js"]) (.text "export \x7b\x7d"))

def alertSurroundings : Surroundings where
  directory := []
  host :=
    { runner := alertTool.runner
      medium := .unlimited
      place := ["scratch"]
      canonical := by decide
      label := "/scratch" }

theorem contained_alertTree : alertTree.Vacant alertSurroundings.host.place ∧
    alertSurroundings.host.runner.Confined alertSurroundings.host.place := by
  refine ⟨fun entry => ?_, Tool.confined_runner ?_ ?_⟩
  · revert entry
    decide +kernel
  · intro command tree
    exact Tree.remove_put (by decide) (by decide) _
  · intro command tree found
    refine .inl ?_
    rw [alertTool, Tree.find?_put (by decide), if_neg (by decide), found]

theorem accepts_alertTree {name : String} (absent : alertTree.find? ["out", name] = none)
    (named : name ≠ "..") (content : String) :
    alertTree.Accepts ["out"] [(["out", name], content)] := by
  constructor
  case passable =>
    intro above within bytes
    have parts : above <+: [] ++ ["out"] := within
    rcases List.prefix_concat_iff.mp parts with rfl | root
    · have missing : alertTree.find? ["out"] = none := by decide +kernel
      simp [missing]
    · simp [List.prefix_nil.mp root, Tree.find?]
  case free =>
    intro file member
    simp [List.mem_singleton.mp member, absent]
  case named =>
    intro file member
    simp [List.mem_singleton.mp member, named]

/--
The document arrives complete in an output file, in a directory that is made for it. So does the
artifact of a tool, and its workspace is gone.
-/
theorem run_delivers_alertText :
    (∃ console,
      run alertSurroundings alertTree ["inline", "alert.graphql", "-o", "out/alert.graphql"] =
        .finished 0 none console ∧
      console.tree.find? ["out"] = some .directory ∧
      console.tree.find? ["out", "alert.graphql"] = some (.text (printedAlertText ++ "\n")) ∧
      console.tree.find? ["alert.graphql"] = some (.text alertText)) ∧
    (alertTree.Vacant alertSurroundings.host.place ∧
      alertSurroundings.host.runner.Confined alertSurroundings.host.place) ∧
    ∃ console,
      run alertSurroundings alertTree
          ["compile", "-s", "schema.graphql", "-p", "alert.graphql", "-o", "out"] =
        .finished 0 none console ∧
      console.tree.find? ["out", "Alert.js"] = some (.text "export \x7b\x7d") ∧
      console.tree.find? ["scratch"] = none := by
  refine ⟨?_, contained_alertTree, ?_⟩
  · have proper : Invocation.read alertTree alertSurroundings.directory
        ["inline", "alert.graphql", "-o", "out/alert.graphql"] =
          some (.inline "alert.graphql" (some "out/alert.graphql") false false false) := by
      decide +kernel
    have worked : work alertSurroundings alertTree
        (.inline "alert.graphql" (some "out/alert.graphql") false false false) =
          .ok (.stored ["out"] [(["out", "alert.graphql"], printedAlertText ++ "\n")]) := by
      decide +kernel
    have delivers := run_delivers alertSurroundings alertTree _ _ proper trivial
    rw [worked] at delivers
    have absent : alertTree.find? ["out", "alert.graphql"] = none := by decide +kernel
    have accepts := accepts_alertTree absent (by decide)
    rcases delivers.exists_stores (accepts _) with ⟨console, ended, stores⟩
    refine ⟨console, ended, stores.leads _ List.prefix_rfl,
      stores.stored _ (List.mem_singleton_self _), ?_⟩
    rw [stores.kept _ (by decide) (by decide)]
    decide +kernel
  · have proper : Invocation.read alertTree alertSurroundings.directory
        ["compile", "-s", "schema.graphql", "-p", "alert.graphql", "-o", "out"] =
          some (.compile "schema.graphql" "alert.graphql" "out" defaultCommand .javascript
            false) := by
      decide +kernel
    have worked : work alertSurroundings alertTree
        (.compile "schema.graphql" "alert.graphql" "out" defaultCommand .javascript false) =
          .ok (.stored ["out"] [(["out", "Alert.js"], "export \x7b\x7d")]) := by
      decide +kernel
    have delivers := run_delivers alertSurroundings alertTree _ _ proper contained_alertTree
    rw [worked] at delivers
    have absent : alertTree.find? ["out", "Alert.js"] = none := by decide +kernel
    have accepts := accepts_alertTree absent (by decide)
    rcases delivers.exists_stores (accepts _) with ⟨console, ended, stores⟩
    refine ⟨console, ended, stores.stored _ (List.mem_singleton_self _), ?_⟩
    rw [stores.kept _ (by decide) (by decide)]
    decide +kernel

/-- On the standard output the document comes without its control sequence. -/
theorem not_shows_alertText :
    ¬ ∀ surroundings tree arguments invocation line,
      Invocation.read tree surroundings.directory arguments = some invocation →
      work surroundings tree invocation = .ok (.shown line) →
      ∃ console, run surroundings tree arguments = .finished 0 none console ∧
        console.stdout = line ++ "\n" := by
  intro shows
  have proper : Invocation.read alertTree alertSurroundings.directory ["inline", "alert.graphql"] =
      some (.inline "alert.graphql" none false false false) := by decide +kernel
  have worked : workInlining alertSurroundings alertTree "alert.graphql" none false false =
      .ok (.shown printedAlertText) := by decide +kernel
  rcases shows alertSurroundings alertTree _ _ _ proper worked with ⟨console, finished, complete⟩
  have delivers := @delivers_inline alertSurroundings alertTree false "alert.graphql" none false
    false
  rw [worked] at delivers
  cases delivers with
  | shown _ other ended _ printed _ =>
      rw [run, proper] at finished
      have same := finished.symm.trans ended
      cases same
      rw [complete] at printed
      exact absurd printed (by decide +kernel)

end Sample

end QueryPrep.CommandLine
