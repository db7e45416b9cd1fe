import QueryPrep.Proofs.Files.Writing

/-!
# What a change adds

However a change of a tree ends, all that it has done is to put nodes where no directory was. So
directories stay what they are, and a change that only puts nodes inside a directory leaves the tree
outside it as it was.
-/

namespace QueryPrep.Files

namespace Tree

/-- One tree comes from another by nodes that are put at some paths, none of them a directory. -/
inductive Grows (within : Path → Prop) (before : Tree) : Tree → Prop
  | refl : Grows within before before
  | put {after : Tree} {path : Path} {node : Node} (earlier : Grows within before after)
      (free : after.find? path ≠ some .directory) (permitted : within path) :
      Grows within before (after.put path node)

variable {within : Path → Prop} {first second third tree : Tree} {path : Path} {node : Node}

theorem Grows.trans (before : Grows within first second) (later : Grows within second third) :
    Grows within first third := by
  induction later with
  | refl => exact before
  | put _ free permitted ih => exact .put ih free permitted

theorem Grows.find?_directory (grows : Grows within first second)
    (found : first.find? path = some .directory) : second.find? path = some .directory := by
  induction grows with
  | refl => exact found
  | put _ free _ ih =>
      rw [find?_put (below_of_find?_ne free), if_neg, ih]
      rintro rfl
      exact free ih

theorem Grows.leadsTo (grows : Grows within first second) (leads : first.LeadsTo path) :
    second.LeadsTo path :=
  fun above prefixed => grows.find?_directory (leads above prefixed)

end Tree

namespace Change

open QueryPrep.Files.Tree

/-- The tree that a change leaves, however it ends. -/
def left {ε α : Type} : EStateM.Result ε Tree α → Tree
  | .ok _ tree => tree
  | .error _ tree => tree

variable {within : Path → Prop} {tree : Tree} {steps : List String} {content : String}

theorem grows_bind {α : Type} {action : Change Unit} {next : Unit → Change α}
    (first : Grows within tree (left (action tree)))
    (second : ∀ after, Grows within tree after → Grows within after (left (next () after))) :
    Grows within tree (left ((action >>= next) tree)) := by
  cases ran : action tree with
  | error error after =>
      have stopped : (action >>= next) tree = .error error after := by
        simp [bind, EStateM.bind, ran]
      rw [ran] at first
      rw [stopped]
      exact first
  | ok value after =>
      have continued : (action >>= next) tree = next () after := by
        simp [bind, EStateM.bind, ran]
      rw [ran] at first
      rw [continued]
      exact first.trans (second after first)

theorem grows_makeDirectory (permitted : ∀ path, tree.walk [] steps = .ok path → within path) :
    Grows within tree (left (makeDirectory steps tree)) := by
  unfold makeDirectory
  split
  case h_1 => exact .refl
  case h_2 path walked =>
    split
    case h_1 => exact .refl
    case h_2 missing => exact .put .refl (by simp [missing]) (permitted path walked)

theorem grows_ensureDirectory (permitted : ∀ path, tree.walk [] steps = .ok path → within path) :
    Grows within tree (left (ensureDirectory steps tree)) := by
  have made := grows_makeDirectory permitted
  unfold ensureDirectory
  split
  case h_1 ran => rwa [ran] at made
  case h_2 ran =>
    rw [ran] at made
    split <;> exact made

theorem grows_ensureAbove (reversed : List String) (tree : Tree) :
    Grows (fun _ => True) tree (left (ensureAbove reversed tree)) := by
  induction reversed generalizing tree with
  | nil => exact .refl
  | cons last above ih =>
      have made := @grows_makeDirectory (fun _ => True) tree (last :: above).reverse
        fun _ _ => trivial
      unfold ensureAbove
      split
      case h_1 between ran =>
        rw [ran] at made
        have others := ih between
        split
        case h_1 after ranAbove =>
          rw [ranAbove] at others
          exact (made.trans others).trans (grows_ensureDirectory fun _ _ => trivial)
        case h_2 ranAbove =>
          rw [ranAbove] at others
          exact made.trans others
      case h_2 ran =>
        rw [ran] at made
        split <;> exact made
      case h_3 ran => rwa [ran] at made

theorem grows_writeFile (permitted : ∀ path, tree.walk [] steps = .ok path → within path) :
    Grows within tree (left (writeFile steps content tree)) := by
  unfold writeFile
  split
  case h_1 => exact .refl
  case h_2 path walked =>
    split
    case h_1 => exact .refl
    case h_2 free => exact .put .refl free (permitted path walked)

end Change

namespace Medium

open QueryPrep.Files.Tree QueryPrep.Files.Change

variable {within : Path → Prop} {tree : Tree} {steps : List String} {content : String}

theorem grows_allow (medium : Medium) :
    Grows within tree (left (medium.allow steps tree)) := by
  unfold allow
  split <;> exact .refl

theorem grows_ensureDirectories (medium : Medium)
    (grows : ∀ after, Grows within tree after →
      Grows within after (left (Change.ensureDirectories steps after))) :
    Grows within tree (left (medium.ensureDirectories steps tree)) :=
  grows_bind (medium.grows_allow) grows

theorem grows_writeFile (medium : Medium)
    (permitted : ∀ (after : Tree) path, after.walk [] steps = .ok path → within path) :
    Grows within tree (left (medium.writeFile steps content tree)) :=
  grows_bind (medium.grows_allow) fun after _ => Change.grows_writeFile (permitted after)

end Medium

end QueryPrep.Files
