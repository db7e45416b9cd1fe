import QueryPrep.Proofs.Files.Listing
import Mathlib.Data.List.Infix

/-!
# Writing files

Files are written into a directory that is made first, with all that lead to it. Nothing can go
wrong if no file is in the way of the directories and no directory in the place of a file. The tree
afterwards has these directories and these files and is the same as before everywhere else.
-/

namespace QueryPrep.Files

section Paths

variable {path above : Path} {step name : String}

theorem Canonical.of_prefix (canonical : Canonical path) (leads : above <+: path) :
    Canonical above :=
  fun dots => canonical (leads.subset dots)

theorem Canonical.append (canonical : Canonical path) (named : name ≠ "..") :
    Canonical (path ++ [name]) := by
  intro dots
  rcases List.mem_append.mp dots with within | last
  · exact canonical within
  · exact named (List.mem_singleton.mp last).symm

theorem Canonical.follow (canonical : Canonical path) (step : String) :
    Canonical (follow path step) := by
  unfold Files.follow
  split
  case isTrue => exact canonical.of_prefix (List.dropLast_prefix path)
  case isFalse named => exact canonical.append named

theorem not_concat_prefix : ¬ path ++ [name] <+: path := by
  intro within
  have shorter := within.length_le
  rw [List.length_append, List.length_singleton] at shorter
  omega

theorem canonical_nil : Canonical [] :=
  List.not_mem_nil

theorem canonical_normalize (steps : List String) : Canonical (normalize steps) := by
  unfold normalize
  induction steps using List.reverseRecOn with
  | nil => exact canonical_nil
  | append_singleton steps step ih =>
      rw [List.foldl_concat]
      exact ih.follow step

theorem follow_eq (canonical : Canonical (path ++ [step])) : follow path step = path ++ [step] := by
  apply if_neg
  rintro rfl
  exact canonical List.mem_concat_self

end Paths

namespace Tree

variable {tree : Tree} {path directory : Path} {rest : List String} {node : Node}
variable {bytes : ByteArray} {name : String}

section Nodes

theorem lookup_putEntry (path other : Path) (node : Node) (entries : List (Path × Node)) :
    (putEntry path node entries).lookup other =
      if other = path then some node else entries.lookup other := by
  induction entries with
  | nil =>
      rw [putEntry, List.lookup_cons]
      by_cases same : other = path
      · simp [same]
      · simp [same, beq_eq_false_iff_ne.mpr same]
  | cons first rest ih =>
      rcases first with ⟨firstPath, firstNode⟩
      simp only [putEntry]
      by_cases replaced : firstPath = path
      · subst replaced
        by_cases same : other = firstPath
        · simp [same]
        · simp [List.lookup_cons, same, beq_eq_false_iff_ne.mpr same]
      · rw [if_neg replaced, List.lookup_cons, List.lookup_cons, ih]
        by_cases here : other = firstPath
        · simp [here, replaced]
        · simp [beq_eq_false_iff_ne.mpr here]

theorem find?_put (below : path ≠ []) (node : Node) (other : Path) :
    (tree.put path node).find? other = if other = path then some node else tree.find? other := by
  have entries : (tree.put path node).entries = putEntry path node tree.entries := by
    simp [put, below]
  unfold find?
  split
  case isTrue atRoot =>
    subst other
    rw [if_neg (Ne.symm below)]
  case isFalse => rw [entries, lookup_putEntry]

theorem entries_put_of_fresh (below : path ≠ [])
    (fresh : path ∉ tree.entries.map Prod.fst) (node : Node) :
    (tree.put path node).entries = tree.entries ++ [(path, node)] := by
  have entries : (tree.put path node).entries = putEntry path node tree.entries := by
    simp [put, below]
  rw [entries]
  clear entries
  generalize tree.entries = entries at fresh
  induction entries with
  | nil => rfl
  | cons first rest ih =>
      rw [List.map_cons, List.mem_cons, not_or] at fresh
      rw [putEntry, if_neg (Ne.symm fresh.1), ih fresh.2, List.cons_append]

theorem find?_of_mem (member : (path, node) ∈ tree.entries) : tree.find? path = some node := by
  rw [find?, if_neg (tree.below _ member), lookup_of_mem tree.distinct member]

theorem find?_of_fresh (below : path ≠ []) (fresh : path ∉ tree.entries.map Prod.fst) :
    tree.find? path = none := by
  rw [find?, if_neg below, List.lookup_eq_none_iff]
  intro entry member
  rw [bne_iff_ne]
  rintro rfl
  exact fresh (List.mem_map_of_mem member)

/-- The root is a directory. -/
theorem below_of_find?_ne {tree : Tree} (different : tree.find? path ≠ some .directory) :
    path ≠ [] := by
  rintro rfl
  exact different rfl

theorem below_of_missing {tree : Tree} (missing : tree.find? path = none) : path ≠ [] := by
  rintro rfl
  cases missing

end Nodes

section Ways

/-- The path and all that lead to it are directories. -/
def LeadsTo (tree : Tree) (path : Path) : Prop :=
  ∀ above, above <+: path → tree.find? above = some .directory

/-- Neither the path nor one that leads to it is a file. -/
def OpenTo (tree : Tree) (path : Path) : Prop :=
  ∀ above, above <+: path → ∀ bytes, tree.find? above ≠ some (.file bytes)

theorem walk_steps_append (tree : Tree) (here : Path) (first rest : List String) :
    tree.walk here (first ++ rest) =
      (tree.walk here first).bind fun path => tree.walk path rest := by
  induction first generalizing here with
  | nil => rfl
  | cons step first ih =>
      rw [List.cons_append, walk, walk]
      cases tree.find? here with
      | none => rfl
      | some node =>
          cases node with
          | file bytes => rfl
          | directory => exact ih _

theorem walk_eq_ok (here : Path) (canonical : Canonical (here ++ rest))
    (leads : ∀ above, above <+: rest → above ≠ rest →
      tree.find? (here ++ above) = some .directory) :
    tree.walk here rest = .ok (here ++ rest) := by
  induction rest generalizing here with
  | nil => rw [walk, List.append_nil]
  | cons step rest ih =>
      have start := leads [] (List.nil_prefix) (by simp)
      rw [List.append_nil] at start
      rw [List.append_cons] at canonical ⊢
      have onward := follow_eq (canonical.of_prefix (List.prefix_append _ rest))
      rw [walk, start]
      simp only [onward]
      apply ih _ canonical
      intro above within differs
      have longer := leads (step :: above) (List.cons_prefix_cons.mpr ⟨rfl, within⟩)
        (by simpa using differs)
      rwa [List.append_cons] at longer

theorem walk_eq_notFound (here : Path) (canonical : Canonical (here ++ rest))
    (passable : ∀ above, above <+: rest → above ≠ rest → ∀ bytes,
      tree.find? (here ++ above) ≠ some (.file bytes))
    (missing : ¬ ∀ above, above <+: rest → above ≠ rest →
      tree.find? (here ++ above) = some .directory) :
    tree.walk here rest = .error .notFound := by
  induction rest generalizing here with
  | nil =>
      exfalso
      apply missing
      intro above within differs
      exact absurd (List.prefix_nil.mp within) differs
  | cons step rest ih =>
      rw [List.append_cons] at canonical
      have onward := follow_eq (canonical.of_prefix (List.prefix_append _ rest))
      have start := passable [] (List.nil_prefix) (by simp)
      rw [List.append_nil] at start
      cases found : tree.find? here with
      | none => rw [walk, found]
      | some node =>
          cases node with
          | file bytes => exact absurd found (start bytes)
          | directory =>
              rw [walk, found]
              simp only [onward]
              apply ih _ canonical
              · intro above within differs
                have longer := passable (step :: above) (List.cons_prefix_cons.mpr ⟨rfl, within⟩)
                  (by simpa using differs)
                rwa [List.append_cons] at longer
              · intro complete
                apply missing
                intro above within differs
                cases above with
                | nil => rwa [List.append_nil]
                | cons first others =>
                    rcases List.cons_prefix_cons.mp within with ⟨rfl, later⟩
                    rw [List.append_cons]
                    exact complete others later (by simpa using differs)

theorem LeadsTo.walk_eq (leads : tree.LeadsTo path) (canonical : Canonical path) :
    tree.walk [] path = .ok path :=
  walk_eq_ok [] canonical fun above within _ => leads above within

theorem leadsTo_nil (tree : Tree) : tree.LeadsTo [] := by
  intro above within
  rw [List.prefix_nil.mp within]
  rfl

theorem walk_append (leads : tree.LeadsTo directory) (canonical : Canonical (directory ++ [name])) :
    tree.walk [] (directory ++ [name]) = .ok (directory ++ [name]) := by
  apply walk_eq_ok [] canonical
  intro above within differs
  exact leads above ((List.prefix_concat_iff.mp within).resolve_left differs)

theorem isDirectory_iff_of_walk {steps : List String} (walked : tree.walk [] steps = .ok path) :
    tree.isDirectory steps = true ↔ tree.find? path = some .directory := by
  rw [isDirectory, nodeAt, walked]
  cases found : tree.find? path with
  | none => simp [bind, Except.bind, found]
  | some node => cases node <;> simp [bind, Except.bind, found, pure, Except.pure]

theorem isDirectory_of_walk_error {steps : List String} {error : FileError}
    (failed : tree.walk [] steps = .error error) : tree.isDirectory steps = false := by
  simp [isDirectory, nodeAt, failed, bind, Except.bind]

theorem walk_append_of_missing (canonical : Canonical (directory ++ [name]))
    (passable : tree.OpenTo directory) (missing : ¬ tree.LeadsTo directory) :
    tree.walk [] (directory ++ [name]) = .error .notFound := by
  apply walk_eq_notFound [] canonical
  · intro above within differs
    exact passable above ((List.prefix_concat_iff.mp within).resolve_left differs)
  · intro complete
    apply missing
    intro above within
    apply complete above (within.trans (List.prefix_append _ _))
    rintro rfl
    exact not_concat_prefix within

end Ways

end Tree

namespace Change

open QueryPrep.Files.Tree

variable {tree : Tree} {path directory : Path} {name : String}

section Directories

/-- The tree after a directory has been made with all that lead to it. -/
def Makes (before : Tree) (path : Path) (after : Tree) : Prop :=
  ∀ other, after.find? other = if other <+: path then some .directory else before.find? other

theorem Makes.leadsTo {before after : Tree} (makes : Makes before path after) :
    after.LeadsTo path := by
  intro above within
  rw [makes above, if_pos within]

theorem makeDirectory_of_fresh (leads : tree.LeadsTo directory)
    (canonical : Canonical (directory ++ [name]))
    (fresh : tree.find? (directory ++ [name]) = none) :
    makeDirectory (directory ++ [name]) tree =
      .ok () (tree.put (directory ++ [name]) .directory) := by
  rw [makeDirectory, walk_append leads canonical]
  simp only [fresh]

theorem makeDirectory_of_present {node : Node} (leads : tree.LeadsTo directory)
    (canonical : Canonical (directory ++ [name]))
    (present : tree.find? (directory ++ [name]) = some node) :
    makeDirectory (directory ++ [name]) tree = .error .alreadyExists tree := by
  rw [makeDirectory, walk_append leads canonical]
  simp only [present]

theorem makes_put (leads : tree.LeadsTo directory) :
    Makes tree (directory ++ [name]) (tree.put (directory ++ [name]) .directory) := by
  intro other
  rw [find?_put (List.concat_ne_nil _ _)]
  by_cases same : other = directory ++ [name]
  · rw [if_pos same, if_pos (same ▸ List.prefix_rfl)]
  · rw [if_neg same]
    by_cases within : other <+: directory ++ [name]
    · rw [if_pos within, leads other ((List.prefix_concat_iff.mp within).resolve_left same)]
    · rw [if_neg within]

theorem makes_self (leads : tree.LeadsTo path) : Makes tree path tree := by
  intro other
  by_cases within : other <+: path
  · rw [if_pos within, leads other within]
  · rw [if_neg within]

theorem Makes.trans {first second third : Tree} (makes : Makes first directory second)
    (more : Makes second (directory ++ [name]) third) :
    Makes first (directory ++ [name]) third := by
  intro other
  rw [more other]
  by_cases within : other <+: directory ++ [name]
  · rw [if_pos within, if_pos within]
  · have outside : ¬ other <+: directory :=
      fun inside => within (inside.trans (List.prefix_append _ _))
    rw [if_neg within, if_neg within, makes other, if_neg outside]

theorem exists_ensureDirectory (leads : tree.LeadsTo directory)
    (canonical : Canonical (directory ++ [name])) (passable : tree.OpenTo (directory ++ [name])) :
    ∃ after, ensureDirectory (directory ++ [name]) tree = .ok () after ∧
      Makes tree (directory ++ [name]) after := by
  cases present : tree.find? (directory ++ [name]) with
  | none =>
      refine ⟨_, ?_, makes_put leads⟩
      rw [ensureDirectory, makeDirectory_of_fresh leads canonical present]
  | some node =>
      cases node with
      | file bytes => exact absurd present (passable _ List.prefix_rfl bytes)
      | directory =>
          refine ⟨tree, ?_, ?_⟩
          · rw [ensureDirectory, makeDirectory_of_present leads canonical present]
            exact if_pos ((isDirectory_iff_of_walk (walk_append leads canonical)).mpr present)
          · apply makes_self
            intro above within
            rcases List.prefix_concat_iff.mp within with rfl | inside
            · exact present
            · exact leads above inside

theorem ensureDirectories_concat (directory : Path) (name : String) (tree : Tree) :
    ensureDirectories (directory ++ [name]) tree =
      match makeDirectory (directory ++ [name]) tree with
      | .error .notFound tree =>
        match ensureDirectories directory tree with
        | .ok () tree => ensureDirectory (directory ++ [name]) tree
        | .error error tree => .error error tree
      | .error error tree =>
        if tree.isDirectory (directory ++ [name]) then .ok () tree else .error error tree
      | .ok () tree => .ok () tree := by
  rw [ensureDirectories, List.reverse_concat, ensureAbove, List.reverse_cons, List.reverse_reverse]
  rfl

/-- As long as the directory above is there, nothing else is made. -/
theorem ensureDirectories_of_leadsTo (leads : tree.LeadsTo directory)
    (canonical : Canonical (directory ++ [name])) :
    ensureDirectories (directory ++ [name]) tree = ensureDirectory (directory ++ [name]) tree := by
  rw [ensureDirectories_concat, ensureDirectory]
  cases present : tree.find? (directory ++ [name]) with
  | none => rw [makeDirectory_of_fresh leads canonical present]
  | some node => rw [makeDirectory_of_present leads canonical present]

theorem exists_ensureDirectories (canonical : Canonical path) (passable : tree.OpenTo path) :
    ∃ after, ensureDirectories path tree = .ok () after ∧ Makes tree path after := by
  induction path using List.reverseRecOn with
  | nil => exact ⟨tree, rfl, makes_self tree.leadsTo_nil⟩
  | append_singleton directory name ih =>
      have above := List.prefix_append directory [name]
      have passableAbove : tree.OpenTo directory :=
        fun way within => passable way (within.trans above)
      by_cases leads : tree.LeadsTo directory
      · rw [ensureDirectories_of_leadsTo leads canonical]
        exact exists_ensureDirectory leads canonical passable
      -- One of the directories above is missing, so all of them are made before the last one.
      have missing : makeDirectory (directory ++ [name]) tree = .error .notFound tree := by
        rw [makeDirectory, walk_append_of_missing canonical passableAbove leads]
      rcases ih (canonical.of_prefix above) passableAbove with ⟨between, made, makes⟩
      have openBetween : between.OpenTo (directory ++ [name]) := by
        intro way within bytes
        rw [makes way]
        split
        · simp
        · exact passable way within bytes
      rcases exists_ensureDirectory makes.leadsTo canonical openBetween with ⟨after, last, more⟩
      refine ⟨after, ?_, makes.trans more⟩
      rw [ensureDirectories_concat, missing]
      simp only [made, last]

end Directories

end Change

namespace Tree

variable {tree : Tree} {directory other : Path} {name content : String}
variable {files : List (String × String)}

section Contents

theorem LeadsTo.put (leads : tree.LeadsTo directory) (node : Node) :
    (tree.put (directory ++ [name]) node).LeadsTo directory := by
  intro above within
  rw [find?_put (List.concat_ne_nil _ _), if_neg, leads above within]
  rintro rfl
  exact not_concat_prefix within

/-- Nothing is in the way of files with these names in a directory. -/
structure Receives (tree : Tree) (directory : Path) (names : List String) : Prop where
  leads : tree.LeadsTo directory
  canonical : ∀ name ∈ names, Canonical (directory ++ [name])
  free : ∀ name ∈ names, tree.find? (directory ++ [name]) ≠ some .directory

theorem Receives.put {names : List String} (receives : tree.Receives directory (name :: names))
    (content : String) :
    (tree.put (directory ++ [name]) (.text content)).Receives directory names := by
  have below := below_of_find?_ne (receives.free name List.mem_cons_self)
  refine ⟨receives.leads.put _,
    fun other member => receives.canonical other (List.mem_cons_of_mem _ member), ?_⟩
  intro other member
  rw [find?_put below]
  split
  · simp
  · exact receives.free other (List.mem_cons_of_mem _ member)

theorem Receives.writeFile_eq {names : List String}
    (receives : tree.Receives directory (name :: names)) (content : String) :
    Change.writeFile (directory ++ [name]) content tree =
      .ok () (tree.put (directory ++ [name]) (.text content)) := by
  have canonical := receives.canonical name List.mem_cons_self
  have free := receives.free name List.mem_cons_self
  rw [Change.writeFile, walk_append receives.leads canonical]
  cases present : tree.find? (directory ++ [name]) with
  | none => simp only [present]
  | some node =>
      cases node with
      | file old => simp only [present]
      | directory => exact absurd present free

/-- The tree with files in a directory. -/
def putFiles (tree : Tree) (directory : Path) : List (String × String) → Tree
  | [] => tree
  | (name, content) :: rest =>
    (tree.put (directory ++ [name]) (.text content)).putFiles directory rest

theorem find?_putFiles_of_not_mem (receives : tree.Receives directory (files.map Prod.fst))
    (absent : ∀ name ∈ files.map Prod.fst, other ≠ directory ++ [name]) :
    (tree.putFiles directory files).find? other = tree.find? other := by
  induction files generalizing tree with
  | nil => rfl
  | cons file rest ih =>
      rcases file with ⟨name, content⟩
      have below := below_of_find?_ne (receives.free name List.mem_cons_self)
      rw [putFiles, ih (receives.put content), find?_put below,
        if_neg (absent name List.mem_cons_self)]
      exact fun name member => absent name (List.mem_cons_of_mem _ member)

theorem find?_putFiles_of_mem (receives : tree.Receives directory (files.map Prod.fst))
    (distinct : (files.map Prod.fst).Nodup) (member : (name, content) ∈ files) :
    (tree.putFiles directory files).find? (directory ++ [name]) = some (.text content) := by
  induction files generalizing tree with
  | nil => cases member
  | cons file rest ih =>
      rcases file with ⟨first, text⟩
      rcases List.nodup_cons.mp distinct with ⟨fresh, restDistinct⟩
      have below := below_of_find?_ne (receives.free first List.mem_cons_self)
      rw [putFiles]
      rcases List.mem_cons.mp member with here | later
      · cases here
        rw [find?_putFiles_of_not_mem (receives.put content), find?_put below, if_pos rfl]
        rintro other otherMember same
        rw [List.append_cancel_left_eq, List.singleton_inj] at same
        exact fresh (same ▸ otherMember)
      · exact ih (receives.put text) restDistinct later

theorem entries_putFiles (receives : tree.Receives directory (files.map Prod.fst))
    (distinct : (files.map Prod.fst).Nodup)
    (fresh : ∀ name ∈ files.map Prod.fst, directory ++ [name] ∉ tree.entries.map Prod.fst) :
    (tree.putFiles directory files).entries =
      tree.entries ++ files.map fun file => (directory ++ [file.1], .text file.2) := by
  induction files generalizing tree with
  | nil => exact (List.append_nil _).symm
  | cons file rest ih =>
      rcases file with ⟨name, content⟩
      rcases List.nodup_cons.mp distinct with ⟨new, restDistinct⟩
      have below := below_of_find?_ne (receives.free name List.mem_cons_self)
      have entries := entries_put_of_fresh below (fresh name List.mem_cons_self) (.text content)
      rw [putFiles, ih (receives.put content) restDistinct, entries, List.append_assoc]
      · rfl
      · intro other member
        rw [entries, List.map_append, List.mem_append, not_or]
        refine ⟨fresh other (List.mem_cons_of_mem _ member), ?_⟩
        intro same
        rw [List.map_singleton, List.mem_singleton, List.append_cancel_left_eq,
          List.singleton_inj] at same
        exact new (same ▸ member)

end Contents

section Storing

/-- Files in a directory, each with its whole path. -/
def inDirectory (directory : Path) (files : List (String × String)) : List (Path × String) :=
  files.map fun file => (directory ++ [file.1], file.2)

/--
The files can be stored: no file is in the way of their directory, no directory is in the place of
one of them, and none has a name that leads back up.
-/
structure Accepts (tree : Tree) (directory : Path) (files : List (Path × String)) : Prop where
  passable : tree.OpenTo directory
  free : ∀ file ∈ files, tree.find? file.1 ≠ some .directory
  named : ∀ file ∈ files, file.1.getLast? ≠ some ".."

/-- The directory and the files are there, and everything else is as it was before. -/
structure Stores (before : Tree) (directory : Path) (files : List (Path × String))
    (after : Tree) : Prop where
  leads : after.LeadsTo directory
  stored : ∀ file ∈ files, after.find? file.1 = some (.text file.2)
  kept : ∀ path, ¬ path <+: directory → path ∉ files.map Prod.fst →
    after.find? path = before.find? path

theorem Accepts.receives {made : Tree}
    (accepts : tree.Accepts directory (inDirectory directory files))
    (canonical : Canonical directory) (makes : Change.Makes tree directory made) :
    made.Receives directory (files.map Prod.fst) := by
  have inside {name : String} (member : name ∈ files.map Prod.fst) :
      ∃ content, (directory ++ [name], content) ∈ inDirectory directory files := by
    rcases List.mem_map.mp member with ⟨file, inFiles, rfl⟩
    exact ⟨file.2, List.mem_map_of_mem inFiles⟩
  constructor
  case leads => exact makes.leadsTo
  case canonical =>
    intro name member
    rcases inside member with ⟨content, inFiles⟩
    apply canonical.append
    rintro rfl
    exact accepts.named _ inFiles List.getLast?_concat
  case free =>
    intro name member
    rcases inside member with ⟨content, inFiles⟩
    rw [makes, if_neg not_concat_prefix]
    exact accepts.free _ inFiles

theorem Receives.stores {made : Tree} (receives : made.Receives directory (files.map Prod.fst))
    (makes : Change.Makes tree directory made) (distinct : (files.map Prod.fst).Nodup) :
    tree.Stores directory (inDirectory directory files) (made.putFiles directory files) := by
  constructor
  case leads =>
    intro above within
    rw [find?_putFiles_of_not_mem receives, makes.leadsTo above within]
    rintro name _ rfl
    exact not_concat_prefix within
  case stored =>
    intro file member
    rcases List.mem_map.mp member with ⟨named, inFiles, rfl⟩
    exact find?_putFiles_of_mem receives distinct inFiles
  case kept =>
    intro path outside absent
    rw [find?_putFiles_of_not_mem receives, makes, if_neg outside]
    rintro name member rfl
    apply absent
    rcases List.mem_map.mp member with ⟨file, inFiles, rfl⟩
    exact List.mem_map_of_mem (List.mem_map_of_mem inFiles)

/-- A tree that accepts files lets their directory be made and then takes them all. -/
theorem Accepts.exists_made (accepts : tree.Accepts directory (inDirectory directory files))
    (canonical : Canonical directory) (distinct : (files.map Prod.fst).Nodup) :
    ∃ made, Change.ensureDirectories directory tree = .ok () made ∧
      made.Receives directory (files.map Prod.fst) ∧
      tree.Stores directory (inDirectory directory files) (made.putFiles directory files) := by
  rcases Change.exists_ensureDirectories canonical accepts.passable with ⟨made, succeeds, makes⟩
  have receives := accepts.receives canonical makes
  exact ⟨made, succeeds, receives, receives.stores makes distinct⟩

end Storing

end Tree

end QueryPrep.Files
