import QueryPrep.Proofs.CommandLine.Actions
import QueryPrep.Proofs.Relay.Confinement

/-!
# The work of a call

The work of a call is what the library does for it: it reads the input files and comes to a failure
or to something that is handed over, and it leaves all files as they are. Some failures are handled
by no command: an input that is no text, a command line that is no proper one, a mishap of the tool.
-/

namespace QueryPrep.CommandLine

open QueryPrep.Files QueryPrep.Inline QueryPrep.Relay QueryPrep.Source QueryPrep.Text

section Work

/-- What goes wrong in the work of a call. -/
inductive Failure
  | document (error : TextError)
  | operations (error : SplitError)
  | tool (error : ToolError)
  /-- A failure that no command handles. -/
  | unhandled (crash : Crash)
deriving DecidableEq

namespace Failure

def message : Failure → String
  | .document error => error.message
  | .operations error => error.message
  | .tool error => error.message
  | .unhandled crash => crash.message

def crash? : Failure → Option Crash
  | .unhandled crash => some crash
  | _ => none

def ofCompileError : CompileError → Failure
  | .workspace (.split error) => .operations error
  | .workspace (.file error) => .unhandled (.file error)
  | .tool error => .tool error
  | .mishap mishap => .unhandled (.mishap mishap)

end Failure

/-- What a call hands over: a line for the standard output, or files for a directory. -/
inductive Delivery
  | shown (line : String)
  | stored (directory : Path) (files : List (Path × String))
deriving DecidableEq

/-- A text goes to the output file, if there is one. -/
def Delivery.ofText (directory : Path) (output : Option String) (text : String) : Delivery :=
  match output with
  | none => .shown text
  | some name =>
    if name.isEmpty then .shown text
    else
      let path := normalize (stepsFrom directory name)
      .stored path.dropLast [(path, text ++ "\n")]

/-- Files go to the output directory. -/
def Delivery.ofFiles (directory : Path) (output : String) (files : List (String × String)) :
    Delivery :=
  let path := normalize (stepsFrom directory output)
  .stored path (Tree.inDirectory path files)

/-- The text of an input file, which may be no text. -/
def input (surroundings : Surroundings) (tree : Tree) (name : String) : Except Failure String :=
  (inputText surroundings tree name).mapError .unhandled

/-- The work of inlining: a document, or an envelope around it. -/
def workInlining (surroundings : Surroundings) (tree : Tree) (operations : String)
    (output : Option String) (asJson strict : Bool) : Except Failure Delivery := do
  let text ← input surroundings tree operations
  match inlineText (if strict then .strict else .lenient) text with
  | .error error => .error (.document error)
  | .ok result =>
    .ok (.ofText surroundings.directory output
      (if asJson then (Envelope.ofResult result).toJson else result))

/-- The work of splitting: the grouped files. -/
def workSplitting (surroundings : Surroundings) (tree : Tree) (operations output : String)
    (language : Language) : Except Failure Delivery := do
  let text ← input surroundings tree operations
  match splitDefinitions text with
  | .error error => .error (.operations error)
  | .ok definitions =>
    .ok (.ofFiles surroundings.directory output
      ((groupDefinitions language.extension definitions).map namedContent))

/-- The work of compiling: the artifacts. -/
def workCompiling (surroundings : Surroundings) (tree : Tree)
    (schema operations output command : String) (language : Language) :
    Except Failure Delivery :=
  match Compiler.ofCommandLine command (.forLanguage language) none with
  | .error error => .error (.unhandled (.shell error))
  | .ok compiler => do
    let schema ← input surroundings tree schema
    let operations ← input surroundings tree operations
    match (runCompiler surroundings compiler tree schema operations).1 with
    | .error error => .error (.ofCompileError error)
    | .ok result => .ok (.ofFiles surroundings.directory output result.artifacts)

/-- The work of a call. -/
def work (surroundings : Surroundings) (tree : Tree) : Invocation → Except Failure Delivery
  | .inline operations output asJson strict _ =>
    workInlining surroundings tree operations output asJson strict
  | .split operations output language _ =>
    workSplitting surroundings tree operations output language
  | .compile schema operations output command language _ =>
    workCompiling surroundings tree schema operations output command language

/--
What a call relies on so that its work changes no files: a compilation needs a new place for its
workspace and a tool that keeps to it.
-/
def Invocation.Contained (surroundings : Surroundings) (tree : Tree) : Invocation → Prop
  | .compile .. => tree.Vacant surroundings.host.place ∧
      surroundings.host.runner.Confined surroundings.host.place
  | _ => True

/-- Does the call ask for an envelope? -/
def Invocation.asJson : Invocation → Bool
  | .inline _ _ asJson _ _ => asJson
  | _ => false

/-- The texts that name the input files of a call. -/
def Invocation.inputs : Invocation → List String
  | .inline operations _ _ _ _ => [operations]
  | .split operations _ _ _ => [operations]
  | .compile schema operations _ _ _ _ => [schema, operations]

end Work

section Inputs

variable {tree : Tree} {directory : Path} {arguments : Arguments} {invocation : Invocation}
variable {text name : String}

theorem exists_file_of_inputFile (accepted : Invocation.inputFile tree directory text = some name) :
    ∃ content, tree.status? directory name = some (.file content) := by
  unfold Invocation.inputFile at accepted
  split at accepted
  case h_1 content found =>
    cases accepted
    exact ⟨content, found⟩
  case h_2 => cases accepted

theorem exists_file_of_readInline
    (read : Invocation.readInline tree directory arguments = some invocation)
    (member : name ∈ invocation.inputs) :
    ∃ content, tree.status? directory name = some (.file content) := by
  simp only [Invocation.readInline, Option.bind_eq_bind, Option.bind_eq_some_iff] at read
  rcases read with ⟨argument, _, operations, accepted, rest⟩
  have inputs : invocation.inputs = [operations] := by
    split at rest
    all_goals
      rcases Option.bind_eq_some_iff.mp rest with ⟨output, _, made⟩
      cases made
      rfl
  rw [inputs] at member
  rw [List.mem_singleton.mp member]
  exact exists_file_of_inputFile accepted

theorem exists_file_of_readSplit
    (read : Invocation.readSplit tree directory arguments = some invocation)
    (member : name ∈ invocation.inputs) :
    ∃ content, tree.status? directory name = some (.file content) := by
  simp only [Invocation.readSplit, Option.bind_eq_bind, Option.bind_eq_some_iff] at read
  rcases read with ⟨argument, _, operations, accepted, _, _, output, _, language, _, made⟩
  cases made
  rw [List.mem_singleton.mp member]
  exact exists_file_of_inputFile accepted

theorem exists_file_of_readCompile
    (read : Invocation.readCompile tree directory arguments = some invocation)
    (member : name ∈ invocation.inputs) :
    ∃ content, tree.status? directory name = some (.file content) := by
  simp only [Invocation.readCompile, Option.bind_eq_bind, Option.bind_eq_some_iff] at read
  rcases read with ⟨_, _, _, _, schema, schemaAccepted, _, _, operations, accepted, _, _, output, _,
    language, _, made⟩
  cases made
  simp only [Invocation.inputs, List.mem_cons, List.not_mem_nil, or_false] at member
  rcases member with rfl | rfl
  · exact exists_file_of_inputFile schemaAccepted
  · exact exists_file_of_inputFile accepted

/-- The inputs of a proper invocation are files. -/
theorem exists_file_of_read {texts : List String}
    (read : Invocation.read tree directory texts = some invocation)
    (member : name ∈ invocation.inputs) :
    ∃ content, tree.status? directory name = some (.file content) := by
  simp only [Invocation.read, Invocation.readCommand, Option.bind_eq_bind,
    Option.bind_eq_some_iff] at read
  rcases read with ⟨command, _, arguments, _, dispatched⟩
  split at dispatched
  · exact exists_file_of_readInline dispatched member
  · split at dispatched
    · exact exists_file_of_readSplit dispatched member
    · split at dispatched
      · exact exists_file_of_readCompile dispatched member
      · cases dispatched

end Inputs

section Crashes

variable {surroundings : Surroundings} {tree : Tree} {compiler : Compiler} {language : Language}
variable {invocation : Invocation} {schema operations name : String} {crash : Crash}

theorem runCompiler_eq (surroundings : Surroundings) (compiler : Compiler) (tree : Tree)
    (schema operations : String) :
    runCompiler surroundings compiler tree schema operations =
      (answer (compiler.compile surroundings.host schema operations (.start tree)),
        sessionAfter (compiler.compile surroundings.host schema operations (.start tree))) := by
  unfold runCompiler
  cases compiler.compile surroundings.host schema operations (.start tree) <;> rfl

theorem tree_runCompiler (vacant : tree.Vacant surroundings.host.place)
    (confined : surroundings.host.runner.Confined surroundings.host.place)
    (layout : compiler.config = .forLanguage language) (schema operations : String) :
    (runCompiler surroundings compiler tree schema operations).2.tree = tree := by
  rw [runCompiler_eq]
  exact @Compiler.tree_sessionAfter_compile _ _ _ (.start tree) confined vacant layout schema
    operations

theorem config_ofCommandLine {command : String} {config : Config}
    (made : Compiler.ofCommandLine command config none = .ok compiler) :
    compiler.config = config := by
  unfold Compiler.ofCommandLine at made
  cases words : ShellWords.split command with
  | error error => simp [words, bind, Except.bind] at made
  | ok words' =>
      simp only [words, bind, Except.bind, pure, Except.pure, Except.ok.injEq] at made
      rw [← made]

/-- Nothing is in the way of a workspace, and everything that is put into it is taken. -/
structure HasRoom (host : Host) (tree : Tree) : Prop where
  unlimited : host.medium = .unlimited
  below : host.place ≠ []
  leads : tree.LeadsTo host.place.dropLast
  vacant : tree.Vacant host.place

theorem HasRoom.makePlace_eq {host : Host} (room : HasRoom host tree) :
    Compiler.makePlace host (.start tree) =
        .ok () { Session.start tree with tree := tree.put host.place .directory } ∧
      EmptyAt (tree.put host.place .directory) host.place := by
  have missing : tree.find? host.place = none := by
    rw [← room.vacant.remove_eq, Tree.find?_remove room.below, if_pos List.prefix_rfl]
  have parts := List.dropLast_append_getLast room.below
  have walked : tree.walk [] host.place = .ok host.place :=
    parts ▸ Tree.walk_append room.leads (parts.symm ▸ host.canonical)
  rcases Change.makeDirectory_cases tree host.canonical with ⟨error, failed⟩ | ⟨made, _, leads⟩
  · simp [Change.makeDirectory, walked, missing] at failed
  refine ⟨?_, leads, host.canonical, ?_⟩
  · simp only [Compiler.makePlace, bind, EStateM.bind, Medium.allow, room.unlimited,
      Medium.unlimited, Session.start, made]
  · intro entry member inside
    have entries : (tree.put host.place .directory).entries =
        putEntry host.place .directory tree.entries := by
      simp [Tree.put, room.below]
    rw [entries] at member
    rcases mem_or_eq_of_mem_putEntry member with before | rfl
    · exact absurd inside (room.vacant entry before)
    · rfl

theorem judge_ne_workspaceError (ending : Ending) (error : WorkspaceError) :
    compiler.judge ending ≠ .error (.workspace error) := by
  cases ending with
  | completed code stdout stderr =>
      simp only [Compiler.judge]
      split <;> simp
  | notFound program => simp [Compiler.judge]
  | timedOut => simp [Compiler.judge]
  | broken mishap => simp [Compiler.judge]

/-- With the default layout the files of a workspace are never in the way of each other. -/
theorem runCompiler_ne_fileError (room : HasRoom surroundings.host tree)
    (layout : compiler.config = .forLanguage language) (error : FileError) :
    (runCompiler surroundings compiler tree schema operations).1 ≠
      .error (.workspace (.file error)) := by
  rcases room.makePlace_eq with ⟨makes, emptyAt⟩
  rw [runCompiler_eq]
  cases split : splitDefinitions operations with
  | error reason =>
      rcases Compiler.compile_of_refused makes
        (prepareWorkspace_of_unsplit split compiler.config _ _ schema _) with ⟨events, compiled⟩
      simp [compiled, answer]
  | ok definitions =>
      rcases exists_prepareWorkspace emptyAt split language schema with ⟨workspace, prepared, _⟩
      rw [← layout, ← room.unlimited] at prepared
      rw [(Compiler.compile_of_prepared makes prepared).1, Compiler.conclude]
      split
      case h_1 reason judged =>
        rintro ⟨⟩
        exact judge_ne_workspaceError _ _ judged
      case h_2 => split <;> simp

theorem read_of_status? {directory : Path} {bytes : ByteArray}
    (found : tree.status? directory name = some (.file bytes)) :
    tree.read (stepsFrom directory name) = .ok bytes := by
  unfold Tree.status? at found
  split at found
  case isTrue => cases found
  case isFalse =>
    split at found
    case h_1 => cases found
    case h_2 other node =>
      split at found
      · cases found
      · cases found
        simp [Tree.read, node, bind, Except.bind, pure, Except.pure]
    case h_3 => cases found

/-- An input file that is there is read, unless it holds no text. -/
theorem input_bind_ne_fileError {bytes : ByteArray} {next : String → Except Failure Delivery}
    {error : FileError} (found : tree.status? surroundings.directory name = some (.file bytes))
    (follows : ∀ text, next text ≠ .error (.unhandled (.file error))) :
    (input surroundings tree name >>= next) ≠ .error (.unhandled (.file error)) := by
  simp only [input, inputText, read_of_status? found]
  cases readText? bytes with
  | some text => exact follows text
  | none => rintro ⟨⟩

/-- As long as there is room for a workspace, the work of a call never fails on the file system. -/
theorem work_ne_fileError {arguments : List String}
    (proper : Invocation.read tree surroundings.directory arguments = some invocation)
    (room : HasRoom surroundings.host tree) (error : FileError) :
    work surroundings tree invocation ≠ .error (.unhandled (.file error)) := by
  have inputs {name : String} (member : name ∈ invocation.inputs) :
      ∃ bytes, tree.status? surroundings.directory name = some (.file bytes) :=
    exists_file_of_read proper member
  cases invocation with
  | inline operations output asJson strict verbose =>
      rcases inputs (List.mem_singleton_self operations) with ⟨bytes, found⟩
      apply input_bind_ne_fileError found
      intro text
      split <;> simp
  | split operations output language verbose =>
      rcases inputs (List.mem_singleton_self operations) with ⟨bytes, found⟩
      apply input_bind_ne_fileError found
      intro text
      split <;> simp
  | compile schema operations output command language verbose =>
      rcases inputs (List.mem_cons_self : schema ∈ _) with ⟨_, schemaFound⟩
      rcases inputs (List.mem_cons_of_mem schema (List.mem_singleton_self operations)) with
        ⟨_, found⟩
      rw [work, workCompiling]
      split
      case h_1 => simp
      case h_2 compiler made =>
        apply input_bind_ne_fileError schemaFound
        intro schemaText
        apply input_bind_ne_fileError found
        intro text
        split
        case h_1 reason failed =>
          rintro same
          rcases reason with ⟨split | file⟩ | tool | mishap
          · cases same
          · exact runCompiler_ne_fileError room (config_ofCommandLine made) file failed
          · cases same
          · cases same
        case h_2 => simp

end Crashes

end QueryPrep.CommandLine
