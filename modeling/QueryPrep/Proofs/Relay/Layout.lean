import QueryPrep.Proofs.Files.Removal
import QueryPrep.Proofs.Relay.Preparation
import QueryPrep.Proofs.Source.Filenames

/-!
# What a prepared workspace holds

With the default paths, a workspace that was empty holds two directories afterwards, the source
files in one of them, and the schema and the configuration beside them. The source files cannot get
in the way of each other or leave their directory, whatever is in the operations, since their names
are different and lead nowhere else.

However far the preparation comes, nothing is put outside the workspace with the default paths.
-/

namespace QueryPrep.Relay

open QueryPrep.Files QueryPrep.Source

section Sources

variable {language : Language} {operations : String} {definitions : List RawDefinition}
variable {file : MergedFile} {files : List MergedFile} {tree : Tree} {directory : Path}

theorem Language.length_extension (language : Language) : language.extension.length = 3 := by
  cases language <;> decide

theorem Language.slash_not_mem_extension (language : Language) :
    '/' ∉ language.extension.toList := by
  cases language <;> decide

/-- What is true of the source files of any operations. -/
theorem isFilename_of_mem_sources (split : splitDefinitions operations = .ok definitions)
    (member : file ∈ groupDefinitions language.extension definitions) :
    IsFilename language.extension file.filename ∧ steps file.filename = [file.filename] ∧
      file.filename ≠ ".." := by
  have isFilename := isFilename_of_mem_groupDefinitions split member
  have long : 2 < language.extension.length := by
    rw [language.length_extension]
    decide
  exact ⟨isFilename, isFilename.steps_eq language.slash_not_mem_extension long,
    isFilename.ne_dots long⟩

/-- A source file with its name in front. -/
def namedContent (file : MergedFile) : String × String :=
  (file.filename, file.content)

theorem map_fst_namedContent (files : List MergedFile) :
    (files.map namedContent).map Prod.fst = files.map (·.filename) := by
  rw [List.map_map]
  rfl

theorem writeSources_eq (receives : tree.Receives directory (files.map (·.filename))) :
    writeSources .unlimited directory files tree =
      .ok () (tree.putFiles directory (files.map namedContent)) := by
  induction files generalizing tree with
  | nil => rfl
  | cons file rest ih =>
      have written : Medium.unlimited.writeFile (directory ++ [file.filename]) file.content tree =
          .ok () (tree.put (directory ++ [file.filename]) (.text file.content)) :=
        receives.writeFile_eq file.content
      have later := ih (receives.put file.content)
      simp only [writeSources, bind, EStateM.bind, written, later]
      rfl

end Sources

section Steps

variable {files : List MergedFile} {root tree after : Tree} {place path : Path} {name : String}
variable {more : List (Path × Node)}

/-- A directory that is there and has nothing in it. -/
structure EmptyAt (tree : Tree) (place : Path) : Prop where
  leads : tree.LeadsTo place
  canonical : Canonical place
  empty : ∀ entry ∈ tree.entries, place <+: entry.1 → entry.1 = place

/-- A tree has something at a place that was not there before, and is the same otherwise. -/
def Adds (before : Tree) (place : Path) (more : List (Path × Node)) (after : Tree) : Prop :=
  after.entries = before.entries ++ more.map fun entry => (place ++ entry.1, entry.2)

theorem adds_nil (root : Tree) (place : Path) : Adds root place [] root :=
  (List.append_nil _).symm

theorem Adds.concat {next : Path × Node} (adds : Adds root place more tree)
    (entries : after.entries = tree.entries ++ [(place ++ next.1, next.2)]) :
    Adds root place (more ++ [next]) after := by
  rw [Adds, entries, adds, List.map_append, List.append_assoc]
  rfl

theorem Adds.leadsTo (adds : Adds root place more tree) (leads : root.LeadsTo path) :
    tree.LeadsTo path := by
  intro above within
  have found := leads above within
  unfold Tree.find? at found ⊢
  split
  case isTrue atRoot => rfl
  case isFalse below =>
    rw [if_neg below] at found
    rw [adds, List.lookup_append, found]
    rfl

theorem Adds.fresh (adds : Adds root place more tree) (emptyAt : EmptyAt root place)
    {rest : List String} (further : rest ≠ []) (new : rest ∉ more.map Prod.fst) :
    place ++ rest ∉ tree.entries.map Prod.fst := by
  rw [adds, List.map_append, List.mem_append, not_or]
  constructor
  · intro member
    rcases List.mem_map.mp member with ⟨entry, present, same⟩
    have atPlace := emptyAt.empty entry present (same ▸ List.prefix_append place rest)
    rw [atPlace, List.self_eq_append_right] at same
    exact further same
  · intro member
    rw [List.map_map] at member
    rcases List.mem_map.mp member with ⟨entry, present, same⟩
    exact new (List.mem_map.mpr ⟨entry, present, List.append_cancel_left same⟩)

theorem Adds.exists_ensureDirectories (adds : Adds root place more tree)
    (emptyAt : EmptyAt root place) (named : name ≠ "..") (new : [name] ∉ more.map Prod.fst) :
    ∃ after, Change.ensureDirectories (place ++ [name]) tree = .ok () after ∧
      Adds root place (more ++ [([name], .directory)]) after := by
  have leads := adds.leadsTo emptyAt.leads
  have canonical := emptyAt.canonical.append named
  have fresh := adds.fresh emptyAt (List.cons_ne_nil name []) new
  have below := List.concat_ne_nil name place
  have made := Change.ensureDirectories_of_leadsTo leads canonical
  rw [Change.ensureDirectory,
    Change.makeDirectory_of_fresh leads canonical (Tree.find?_of_fresh below fresh)] at made
  exact ⟨_, made, adds.concat (Tree.entries_put_of_fresh below fresh _)⟩

theorem Adds.exists_writeFile (adds : Adds root place more tree) (emptyAt : EmptyAt root place)
    (named : name ≠ "..") (new : [name] ∉ more.map Prod.fst) (content : String) :
    ∃ after, Change.writeFile (place ++ [name]) content tree = .ok () after ∧
      Adds root place (more ++ [([name], .text content)]) after := by
  have fresh := adds.fresh emptyAt (List.cons_ne_nil name []) new
  have below := List.concat_ne_nil name place
  have receives : tree.Receives place [name] := by
    constructor
    case leads => exact adds.leadsTo emptyAt.leads
    case canonical =>
      intro other member
      rw [List.mem_singleton.mp member]
      exact emptyAt.canonical.append named
    case free =>
      intro other member
      simp [List.mem_singleton.mp member, Tree.find?_of_fresh below fresh]
  exact ⟨_, receives.writeFile_eq content,
    adds.concat (Tree.entries_put_of_fresh below fresh _)⟩

theorem Adds.exists_writeSources {directory : String} (adds : Adds root place more tree)
    (emptyAt : EmptyAt root place) (named : directory ≠ "..")
    (made : ([directory], .directory) ∈ more)
    (empty : ∀ name, [directory, name] ∉ more.map Prod.fst)
    (distinct : (files.map (·.filename)).Nodup) (single : ∀ file ∈ files, file.filename ≠ "..") :
    ∃ after, writeSources .unlimited (place ++ [directory]) files tree = .ok () after ∧
      Adds root place
        (more ++ files.map fun file => ([directory, file.filename], .text file.content)) after := by
  have fresh (name : String) : place ++ [directory] ++ [name] ∉ tree.entries.map Prod.fst := by
    rw [List.append_assoc]
    exact adds.fresh emptyAt (List.cons_ne_nil _ _) (empty name)
  have receives : tree.Receives (place ++ [directory]) (files.map (·.filename)) := by
    constructor
    case leads =>
      intro above within
      rcases List.prefix_concat_iff.mp within with rfl | inside
      · apply Tree.find?_of_mem
        rw [adds]
        exact List.mem_append_right _ (List.mem_map.mpr ⟨_, made, rfl⟩)
      · exact adds.leadsTo emptyAt.leads above inside
    case canonical =>
      intro name member
      rcases List.mem_map.mp member with ⟨file, inFiles, rfl⟩
      exact (emptyAt.canonical.append named).append (single file inFiles)
    case free =>
      intro name _
      simp only [Tree.find?_of_fresh (List.concat_ne_nil name _) (fresh name), ne_eq,
        reduceCtorEq, not_false_iff]
  rw [writeSources_eq receives]
  rw [← map_fst_namedContent] at distinct receives
  refine ⟨_, rfl, ?_⟩
  rw [Adds, Tree.entries_putFiles receives distinct fun name _ => fresh name, adds,
    List.map_append, List.append_assoc, List.map_map, List.map_map]
  simp only [Function.comp_def, namedContent, List.append_assoc, List.cons_append, List.nil_append]

end Steps

section Layouts

variable {language : Language} {schema operations : String} {definitions : List RawDefinition}
variable {files : List MergedFile} {root : Tree} {place : Path}

/-- The directories and files of a workspace, in the order in which they are made. -/
def layout (language : Language) (schema : String) (files : List MergedFile) :
    List (Path × Node) :=
  [(["src"], .directory), (["output"], .directory)] ++
    files.map (fun file => (["src", file.filename], .text file.content)) ++
    [(["schema.graphql"], .text schema),
      (["relay.config.json"], .text (Config.forLanguage language).toJson)]

theorem stepsFrom_of_relative {text : String} (relative : text.toList.head? ≠ some '/')
    (place : Path) : stepsFrom place text = place ++ steps text :=
  if_neg relative

/-- The default paths lead into the workspace. -/
theorem stepsFrom_default (place : Path) :
    stepsFrom place "./src" = place ++ ["src"] ∧ stepsFrom place "./output" = place ++ ["output"] ∧
      stepsFrom place "./schema.graphql" = place ++ ["schema.graphql"] := by
  have src : steps "./src" = ["src"] := by decide
  have output : steps "./output" = ["output"] := by decide
  have schemaFile : steps "./schema.graphql" = ["schema.graphql"] := by decide
  rw [← src, ← output, ← schemaFile]
  refine ⟨?_, ?_, ?_⟩ <;> exact stepsFrom_of_relative (by decide) place

theorem exists_writeWorkspace (emptyAt : EmptyAt root place) (language : Language)
    (schema : String) (distinct : (files.map (·.filename)).Nodup)
    (single : ∀ file ∈ files, file.filename ≠ "..") :
    ∃ workspace,
      writeWorkspace (.forLanguage language) .unlimited place schema files root =
        .ok () workspace ∧
      Adds root place (layout language schema files) workspace := by
  rcases (adds_nil root place).exists_ensureDirectories emptyAt (by decide : "src" ≠ "..")
    (by simp) with ⟨first, madeSrc, addsSrc⟩
  rcases addsSrc.exists_ensureDirectories emptyAt (by decide : "output" ≠ "..") (by simp) with
    ⟨second, madeOutput, addsOutput⟩
  rcases addsOutput.exists_writeSources emptyAt (by decide : "src" ≠ "..") (by simp) (by simp)
    distinct single with ⟨third, wroteSources, addsSources⟩
  rcases addsSources.exists_writeFile emptyAt (by decide : "schema.graphql" ≠ "..") (by simp)
    schema with ⟨fourth, wroteSchema, addsSchema⟩
  rcases addsSchema.exists_writeFile emptyAt (by decide : configFilename ≠ "..")
    (by simp [configFilename]) (Config.forLanguage language).toJson with
    ⟨last, wroteConfig, addsConfig⟩
  refine ⟨last, ?_, ?_⟩
  · rcases stepsFrom_default place with ⟨src, output, schemaFile⟩
    simp only [writeWorkspace, Config.forLanguage, Medium.ensureDirectories, Medium.writeFile,
      Medium.allow, Medium.unlimited, bind, EStateM.bind, src, output, schemaFile, madeSrc,
      madeOutput, wroteSources, wroteSchema]
    exact wroteConfig
  · simpa [layout, configFilename] using addsConfig

theorem exists_prepareWorkspace (emptyAt : EmptyAt root place)
    (split : splitDefinitions operations = .ok definitions) (language : Language)
    (schema : String) :
    ∃ workspace,
      prepareWorkspace (.forLanguage language) .unlimited place schema operations root =
        .ok (groupDefinitions language.extension definitions) workspace ∧
      Adds root place (layout language schema (groupDefinitions language.extension definitions))
        workspace := by
  have increasing := pairwise_filename_groupDefinitions language.extension definitions
  have single : ∀ file ∈ groupDefinitions language.extension definitions, file.filename ≠ ".." :=
    fun file member => (isFilename_of_mem_sources split member).2.2
  rcases exists_writeWorkspace emptyAt language schema (increasing.imp ne_of_lt) single with
    ⟨workspace, written, adds⟩
  have sources : sourceFiles (.forLanguage language) operations =
      .ok (groupDefinitions language.extension definitions) := by
    simp only [sourceFiles, split, bind, Except.bind]
    rfl
  refine ⟨workspace, ?_, adds⟩
  simp only [prepareWorkspace, sources, written]

/--
What is guaranteed of a workspace that was empty: it holds what its layout lists and nothing else,
and all around it is as it was before. The names of the source files are in increasing order, so no
file has taken the place of another, and each name is a single step of name characters and the
extension.
-/
structure HoldsLayout (language : Language) (schema : String) (files : List MergedFile)
    (root : Tree) (place : Path) (workspace : Tree) : Prop where
  entries : workspace.entries = root.entries ++
    (layout language schema files).map fun entry => (place ++ entry.1, entry.2)
  increasing : (files.map (·.filename)).Pairwise (· < ·)
  named : ∀ file ∈ files, IsFilename language.extension file.filename
  single : ∀ file ∈ files, steps file.filename = [file.filename]

/--
Operations that cannot be split leave everything as it is, with any configuration. All others fill
an empty workspace with the grouped source files, the schema and the configuration.
-/
theorem prepareWorkspace_holdsLayout (schema operations : String) :
    match splitDefinitions operations with
    | .error error => ∀ config medium place root,
        prepareWorkspace config medium place schema operations root = .error (.split error) root
    | .ok definitions => ∀ language root place, EmptyAt root place → ∃ workspace,
        prepareWorkspace (.forLanguage language) .unlimited place schema operations root =
          .ok (groupDefinitions language.extension definitions) workspace ∧
        HoldsLayout language schema (groupDefinitions language.extension definitions)
          root place workspace := by
  cases split : splitDefinitions operations with
  | error error =>
      intro config medium place root
      exact prepareWorkspace_of_unsplit split config medium place schema root
  | ok definitions =>
      intro language root place emptyAt
      rcases exists_prepareWorkspace emptyAt split language schema with ⟨workspace, prepared, adds⟩
      refine ⟨workspace, prepared, adds, ?_, ?_, ?_⟩
      · exact pairwise_filename_groupDefinitions _ _
      · intro file member
        exact (isFilename_of_mem_sources split member).1
      · intro file member
        exact (isFilename_of_mem_sources split member).2.1

/-- Two definitions that share a file, and one with a file of its own. -/
def deckOperations : String :=
  "query CardQuery \x7b ...Card_body \x7d\nfragment Card_body on Card \x7b body \x7d\n" ++
    "query Deck \x7b size \x7d"

def deckDefinitions : List RawDefinition :=
  [⟨.query, "CardQuery", "query CardQuery \x7b ...Card_body \x7d"⟩,
    ⟨.fragment, "Card_body", "fragment Card_body on Card \x7b body \x7d"⟩,
    ⟨.query, "Deck", "query Deck \x7b size \x7d"⟩]

def deckFiles : List MergedFile :=
  [⟨"Card.ts", "graphql`query CardQuery \x7b ...Card_body \x7d`\n" ++
      "graphql`fragment Card_body on Card \x7b body \x7d`"⟩,
    ⟨"Deck.ts", "graphql`query Deck \x7b size \x7d`"⟩]

/-- An empty directory beside a file. -/
def deckRoot : Tree :=
  ((Tree.empty.put ["notes.txt"] (.text "mine")).put ["tmp"] .directory).put ["tmp", "deck"]
    .directory

theorem emptyAt_deckRoot : EmptyAt deckRoot ["tmp", "deck"] := by
  constructor
  case leads =>
    have ways : ∀ above ∈ ["tmp", "deck"].inits, deckRoot.find? above = some .directory := by
      decide
    exact fun above within => ways above ((List.mem_inits _ _).mpr within)
  case canonical => decide
  case empty => decide

theorem prepareWorkspace_deckOperations :
    EmptyAt deckRoot ["tmp", "deck"] ∧
    ∃ workspace,
      prepareWorkspace (.forLanguage .typescript) .unlimited ["tmp", "deck"] "type Card"
        deckOperations deckRoot = .ok deckFiles workspace ∧
      workspace.entries =
        [(["notes.txt"], .text "mine"), (["tmp"], .directory), (["tmp", "deck"], .directory)] ++
        (layout .typescript "type Card" deckFiles).map fun entry =>
          (["tmp", "deck"] ++ entry.1, entry.2) := by
  have split : splitDefinitions deckOperations = .ok deckDefinitions := by decide +kernel
  have grouped : groupDefinitions Language.typescript.extension deckDefinitions = deckFiles := by
    have inOrder : (deckDefinitions.map (·.toRecord Language.typescript.extension)).Pairwise
        fun first second => first.le second = true := by
      decide +kernel
    rw [groupDefinitions, mergeFileRecords, List.mergeSort_of_pairwise inOrder]
    decide +kernel
  generalize deckOperations = operations at split ⊢
  have holds := prepareWorkspace_holdsLayout "type Card" operations
  rw [split] at holds
  rcases holds .typescript deckRoot _ emptyAt_deckRoot with ⟨workspace, prepared, held⟩
  rw [grouped] at prepared held
  exact ⟨emptyAt_deckRoot, workspace, prepared, held.entries⟩

end Layouts

section Confinement

variable {place path : Path} {tree : Tree}

theorem inside_of_walk {rest : List String} (canonical : Canonical (place ++ rest))
    (walked : tree.walk [] (place ++ rest) = .ok path) : place <+: path := by
  rw [Tree.eq_of_walk canonical walked]
  exact List.prefix_append place rest

/-- With the default paths, nothing is put outside the workspace, even if its preparation fails. -/
theorem grows_prepareWorkspace_forLanguage (leads : tree.LeadsTo place)
    (canonical : Canonical place) (language : Language) (medium : Medium)
    (schema operations : String) :
    Tree.Grows (place <+: ·) tree (Change.left
      (prepareWorkspace (.forLanguage language) medium place schema operations tree)) := by
  have inside {name : String} (named : name ≠ "..") := canonical.append named
  rcases stepsFrom_default place with ⟨src, output, schemaFile⟩
  apply grows_prepareWorkspace
  intro files sources
  have directory {after : Tree} {name : String} (named : name ≠ "..")
      (grows : Tree.Grows (place <+: ·) tree after) :
      Tree.Grows (place <+: ·) after
        (Change.left (Change.ensureDirectories (place ++ [name]) after)) := by
    rw [Change.ensureDirectories_of_leadsTo (grows.leadsTo leads) (inside named)]
    exact Change.grows_ensureDirectory fun path walked => inside_of_walk (inside named) walked
  apply grows_writeWorkspace
  · intro text member after grows
    simp only [Config.forLanguage, List.mem_cons, List.not_mem_nil, or_false] at member
    rcases member with rfl | rfl
    · rw [src]
      exact directory (by decide) grows
    · rw [output]
      exact directory (by decide) grows
  · intro file member after path walked
    cases split : splitDefinitions operations with
    | error error => simp [sourceFiles, split, bind, Except.bind] at sources
    | ok definitions =>
        simp only [sourceFiles, split, bind, Except.bind, pure, Except.pure, Except.ok.injEq]
          at sources
        subst sources
        have named : file.filename ≠ ".." := (isFilename_of_mem_sources split member).2.2
        have canonicalFile := (inside (by decide : "src" ≠ "..")).append named
        rw [Config.forLanguage, src] at walked
        rw [List.append_assoc] at walked canonicalFile
        exact inside_of_walk canonicalFile walked
  · intro steps member after path walked
    simp only [Config.forLanguage, schemaFile, List.mem_cons, List.not_mem_nil, or_false] at member
    rcases member with rfl | rfl
    · exact inside_of_walk (inside (by decide)) walked
    · exact inside_of_walk (inside (by decide)) walked

end Confinement

end QueryPrep.Relay
