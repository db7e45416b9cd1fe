import QueryPrep.Files.Path

/-!
# File trees

The directories and files below a root, as a list of paths with what is there. No path is listed
twice. The root is always a directory and is not listed. A file holds bytes, which may or may not be
text. Reading and changing a tree fails in the ways in which a file system does, and a change that
fails half-way keeps the half that succeeded.
-/

namespace QueryPrep.Files

/-- The one comparison of bytes; libraries bring others that decide the same. -/
instance decidableEqBytes : DecidableEq ByteArray :=
  ByteArray.instDecidableEq

/-- What is at a path. -/
inductive Node
  | directory
  | file (bytes : ByteArray)
deriving DecidableEq

/-- A file that holds a text. -/
abbrev Node.text (content : String) : Node := .file content.toUTF8

/-- A reason why a file system refuses. -/
inductive FileError
  | notFound
  | isDirectory
  | alreadyExists
  | notDirectory
  /-- Any other reason, which has nothing to do with what is in the tree. -/
  | refused (reason : String)
deriving DecidableEq

/-- The message of an error. -/
def FileError.message : FileError → String
  | .notFound => "No such file or directory"
  | .isDirectory => "Is a directory"
  | .alreadyExists => "File exists"
  | .notDirectory => "Not a directory"
  | .refused reason => reason

/-- Entries with another node at a path, in the place of the one that is there, or last. -/
def putEntry (path : Path) (node : Node) : List (Path × Node) → List (Path × Node)
  | [] => [(path, node)]
  | first :: rest =>
    if first.1 = path then (path, node) :: rest else first :: putEntry path node rest

theorem mem_or_eq_of_mem_putEntry {path : Path} {node : Node} {entries : List (Path × Node)}
    {entry : Path × Node} (member : entry ∈ putEntry path node entries) :
    entry ∈ entries ∨ entry = (path, node) := by
  induction entries with
  | nil => simpa [putEntry] using member
  | cons first rest ih =>
    simp only [putEntry] at member
    split at member
    · simp only [List.mem_cons] at member ⊢
      exact member.elim Or.inr fun later => Or.inl (Or.inr later)
    · simp only [List.mem_cons] at member ⊢
      rcases member with here | later
      · exact Or.inl (Or.inl here)
      · exact (ih later).imp_left Or.inr

theorem nodup_putEntry {path : Path} {node : Node} {entries : List (Path × Node)}
    (distinct : (entries.map Prod.fst).Nodup) :
    ((putEntry path node entries).map Prod.fst).Nodup := by
  induction entries with
  | nil => simp [putEntry]
  | cons first rest ih =>
    have parts := List.nodup_cons.mp distinct
    simp only [putEntry]
    split
    case isTrue same =>
      subst path
      exact distinct
    case isFalse differs =>
      apply List.nodup_cons.mpr
      refine ⟨?_, ih parts.2⟩
      intro repeated
      rcases List.mem_map.mp repeated with ⟨entry, member, same⟩
      rcases mem_or_eq_of_mem_putEntry member with there | rfl
      · exact parts.1 (List.mem_map.mpr ⟨entry, there, same⟩)
      · exact differs same.symm

/-- The directories and files below a root. -/
structure Tree where
  entries : List (Path × Node)
  distinct : (entries.map Prod.fst).Nodup
  below : ∀ entry ∈ entries, entry.1 ≠ []
deriving DecidableEq

/-- A change of a tree that may fail. -/
abbrev Change := EStateM FileError Tree

namespace Tree

/-- The tree without anything below the root. -/
def empty : Tree := ⟨[], by simp, by simp⟩

/-- What is at a path. -/
def find? (tree : Tree) (path : Path) : Option Node :=
  if path = [] then some .directory else tree.entries.lookup path

/-- The tree with another node at a path. The root stays a directory. -/
def put (tree : Tree) (path : Path) (node : Node) : Tree :=
  if atRoot : path = [] then tree
  else
    { entries := putEntry path node tree.entries
      distinct := nodup_putEntry tree.distinct
      below := by
        intro entry member
        rcases mem_or_eq_of_mem_putEntry member with there | rfl
        · exact tree.below entry there
        · exact atRoot }

/-- The tree of some of the entries. -/
def filter (keep : Path × Node → Bool) (tree : Tree) : Tree where
  entries := tree.entries.filter keep
  distinct := tree.distinct.sublist (List.filter_sublist.map Prod.fst)
  below entry member := tree.below entry (List.mem_filter.mp member).1

/-- The tree without a path and everything below it. -/
def remove (tree : Tree) (path : Path) : Tree :=
  tree.filter fun entry => !path.isPrefixOf entry.1

/--
The path that steps lead to from a path. Every step starts in a directory; the last one may lead
to where nothing is.
-/
def walk (tree : Tree) (here : Path) : List String → Except FileError Path
  | [] => .ok here
  | step :: rest =>
    match tree.find? here with
    | some .directory => tree.walk (follow here step) rest
    | some (.file _) => .error .notDirectory
    | none => .error .notFound

/-- What the steps lead to. -/
def nodeAt (tree : Tree) (steps : List String) : Except FileError Node := do
  match tree.find? (← tree.walk [] steps) with
  | some node => return node
  | none => throw .notFound

/-- Do the steps lead to a directory? -/
def isDirectory (tree : Tree) (steps : List String) : Bool :=
  match tree.nodeAt steps with
  | .ok .directory => true
  | _ => false

/--
What a text leads to when it is read in a directory; one that insists on a directory does not lead
to a file.
-/
def status? (tree : Tree) (directory : Path) (text : String) : Option Node :=
  if text.isEmpty then none
  else
    match tree.nodeAt (stepsFrom directory text) with
    | .ok .directory => some .directory
    | .ok (.file bytes) => if insistsOnDirectory text then none else some (.file bytes)
    | .error _ => none

/-- The bytes of a file. -/
def read (tree : Tree) (steps : List String) : Except FileError ByteArray := do
  match ← tree.nodeAt steps with
  | .file bytes => return bytes
  | .directory => throw .isDirectory

/-- The tree without the directory that the steps lead to. What is no directory stays. -/
def removeDirectory (tree : Tree) (steps : List String) : Tree :=
  match tree.walk [] steps with
  | .ok path => if tree.find? path = some .directory then tree.remove path else tree
  | .error _ => tree

/-- The name and the node of an entry that is directly inside a directory. -/
def child? (directory : Path) (entry : Path × Node) : Option (String × Node) :=
  match entry.1.getLast? with
  | some name => if entry.1.dropLast = directory then some (name, entry.2) else none
  | none => none

/-- What is directly inside a directory, ordered by name. -/
def children (tree : Tree) (directory : Path) : List (String × Node) :=
  (tree.entries.filterMap (child? directory)).mergeSort fun first second =>
    decide (first.1 ≤ second.1)

/-- The plain files directly inside a directory with their bytes, ordered by name. -/
def filesIn (tree : Tree) (directory : Path) : List (String × ByteArray) :=
  (tree.children directory).filterMap fun child =>
    match child.2 with
    | .file bytes => some (child.1, bytes)
    | .directory => none

/-- The entries of a tree that another tree does not have. -/
def changesSince (before after : Tree) : Tree :=
  after.filter fun entry => before.find? entry.1 != some entry.2

end Tree

namespace Change

/-- Make one directory where nothing is yet. -/
def makeDirectory (steps : List String) : Change Unit := fun tree =>
  match tree.walk [] steps with
  | .error error => .error error tree
  | .ok path =>
    match tree.find? path with
    | some _ => .error .alreadyExists tree
    | none => .ok () (tree.put path .directory)

/-- Make one directory unless it is there already. -/
def ensureDirectory (steps : List String) : Change Unit := fun tree =>
  match makeDirectory steps tree with
  | .ok () tree => .ok () tree
  | .error error tree => if tree.isDirectory steps then .ok () tree else .error error tree

/--
Make a directory with all that lead to it, unless it is there already. The steps come last one
first. The directories above are only looked at if one of them is missing.
-/
def ensureAbove : (reversed : List String) → Change Unit
  | [] => pure ()
  | last :: above => fun tree =>
    match makeDirectory (last :: above).reverse tree with
    | .error .notFound tree =>
      match ensureAbove above tree with
      | .ok () tree => ensureDirectory (last :: above).reverse tree
      | .error error tree => .error error tree
    | .error error tree =>
      if tree.isDirectory (last :: above).reverse then .ok () tree else .error error tree
    | .ok () tree => .ok () tree

/-- Make a directory with all that lead to it, unless it is there already. -/
def ensureDirectories (steps : List String) : Change Unit :=
  ensureAbove steps.reverse

/-- Write a text into a file; what was in it before is lost. -/
def writeFile (steps : List String) (content : String) : Change Unit := fun tree =>
  match tree.walk [] steps with
  | .error error => .error error tree
  | .ok path =>
    match tree.find? path with
    | some .directory => .error .isDirectory tree
    | _ => .ok () (tree.put path (.text content))

end Change

/--
What a file system refuses for reasons of its own: a name may be too long, say, or hold a character
that no name can hold, or there may be no space left.
-/
abbrev Medium := List String → Option FileError

namespace Medium

/-- A file system that refuses nothing for reasons of its own. -/
def unlimited : Medium := fun _ => none

/-- Does the file system take what is to be made at some steps? -/
def allow (medium : Medium) (steps : List String) : Change Unit := fun tree =>
  match medium steps with
  | none => .ok () tree
  | some error => .error error tree

/-- Make a directory with all that lead to it, unless it is there already. -/
def ensureDirectories (medium : Medium) (steps : List String) : Change Unit := do
  medium.allow steps
  Change.ensureDirectories steps

/-- Write a text into a file; what was in it before is lost. -/
def writeFile (medium : Medium) (steps : List String) (content : String) : Change Unit := do
  medium.allow steps
  Change.writeFile steps content

end Medium

end QueryPrep.Files
