import QueryPrep.Proofs.Files.Growth

/-!
# Removing a directory

A directory is removed with all that is in it, and nothing else is touched. What is found at its
place afterwards is what was no directory: nothing, or a plain file.

A change that only adds nodes inside a directory cannot be noticed once the directory is removed.
-/

namespace QueryPrep.Files

namespace Tree

variable {tree before after : Tree} {path place other here : Path} {rest : List String}
variable {node : Node}

section Walks

/-- Steps that only lead down lead where they say, if they lead anywhere. -/
theorem eq_of_walk_eq_ok (canonical : Canonical (here ++ rest))
    (walked : tree.walk here rest = .ok path) : path = here ++ rest := by
  induction rest generalizing here with
  | nil =>
      cases walked
      exact (List.append_nil _).symm
  | cons step rest ih =>
      rw [List.append_cons] at canonical ⊢
      rw [walk] at walked
      cases found : tree.find? here with
      | none => simp [found] at walked
      | some node =>
          cases node with
          | file bytes => simp [found] at walked
          | directory =>
              have onward := follow_eq (canonical.of_prefix (List.prefix_append _ rest))
              simp only [found, onward] at walked
              exact ih canonical walked

theorem eq_of_walk (canonical : Canonical place) (walked : tree.walk [] place = .ok path) :
    path = place :=
  @eq_of_walk_eq_ok tree path [] place canonical walked

/-- Steps lead through directories only. -/
theorem find?_of_walk (canonical : Canonical place) (walked : tree.walk [] place = .ok path)
    (within : other <+: place) (differs : other ≠ place) :
    tree.find? other = some .directory := by
  rcases within with ⟨rest, rfl⟩
  cases rest with
  | nil => exact absurd (List.append_nil other).symm differs
  | cons step rest =>
      rw [walk_steps_append] at walked
      cases reached : tree.walk [] other with
      | error error => simp [reached, Except.bind] at walked
      | ok here =>
          obtain rfl : here = other :=
            eq_of_walk (canonical.of_prefix (List.prefix_append _ _)) reached
          simp only [reached, Except.bind, walk] at walked
          cases found : tree.find? here with
          | none => simp [found] at walked
          | some node =>
              cases node with
              | file bytes => simp [found] at walked
              | directory => rfl

/-- No steps lead on from where nothing is. -/
theorem exists_nodeAt_error (canonical : Canonical place) (missing : tree.find? place = none)
    (rest : List String) : ∃ error, tree.nodeAt (place ++ rest) = .error error := by
  simp only [nodeAt, walk_steps_append]
  cases walked : tree.walk [] place with
  | error error => exact ⟨error, rfl⟩
  | ok path =>
      obtain rfl : path = place := eq_of_walk canonical walked
      cases rest with
      | nil => exact ⟨.notFound, by simp [walk, bind, Except.bind, missing]; rfl⟩
      | cons step rest => exact ⟨.notFound, by simp [walk, bind, Except.bind, missing]⟩

end Walks

section Filters

theorem lookup_filter (keep : Path → Bool) (other : Path) (entries : List (Path × Node)) :
    (entries.filter fun entry => keep entry.1).lookup other =
      if keep other then entries.lookup other else none := by
  induction entries with
  | nil => simp
  | cons first rest ih =>
      rcases first with ⟨firstPath, firstNode⟩
      by_cases same : other = firstPath
      · subst other
        by_cases kept : keep firstPath = true
        · simp [kept]
        · rw [List.filter_cons_of_neg (by simpa using kept), ih, if_neg kept, if_neg kept]
      · have later : ((firstPath, firstNode) :: rest).lookup other = rest.lookup other := by
          rw [List.lookup_cons, beq_eq_false_iff_ne.mpr same]
        rw [later, ← ih, List.filter_cons]
        split
        · rw [List.lookup_cons, beq_eq_false_iff_ne.mpr same]
        · rfl

theorem find?_remove (below : path ≠ []) (other : Path) :
    (tree.remove path).find? other = if path <+: other then none else tree.find? other := by
  by_cases atRoot : other = []
  · subst other
    have outside : ¬ path <+: [] := fun inside => below (List.prefix_nil.mp inside)
    rw [if_neg outside]
    rfl
  · rw [find?, if_neg atRoot, find?, if_neg atRoot, remove, filter,
      lookup_filter (fun entry => !path.isPrefixOf entry)]
    by_cases inside : path <+: other
    · simp [inside]
    · simp [inside]

theorem ext_entries (same : before.entries = after.entries) : before = after := by
  cases before
  cases after
  simp_all

/-- Nothing is found at a place or below it. -/
def Vacant (tree : Tree) (place : Path) : Prop :=
  ∀ entry ∈ tree.entries, ¬ place <+: entry.1

theorem Vacant.remove_eq (vacant : tree.Vacant place) : tree.remove place = tree := by
  apply ext_entries
  apply List.filter_eq_self.mpr
  intro entry member
  have outside := vacant entry member
  rw [← List.isPrefixOf_iff_prefix, Bool.not_eq_true] at outside
  rw [outside, Bool.not_false]

theorem filter_putEntry (keep : Path → Bool) (dropped : keep path = false) (node : Node)
    (entries : List (Path × Node)) :
    (putEntry path node entries).filter (fun entry => keep entry.1) =
      entries.filter fun entry => keep entry.1 := by
  induction entries with
  | nil => simp [putEntry, dropped]
  | cons first rest ih =>
      rw [putEntry]
      split
      case isTrue same =>
        subst path
        rw [List.filter_cons_of_neg (by simp [dropped]),
          List.filter_cons_of_neg (by simp [dropped])]
      case isFalse => simp only [List.filter_cons, ih]

theorem remove_put (inside : place <+: path) (below : path ≠ []) (node : Node) :
    (tree.put path node).remove place = tree.remove place := by
  apply ext_entries
  have entries : (tree.put path node).entries = putEntry path node tree.entries := by
    simp [put, below]
  simp only [remove, filter, entries]
  exact filter_putEntry (fun entry => !place.isPrefixOf entry) (by simp [inside]) node tree.entries

/-- What is added inside a directory goes with it. -/
theorem Grows.remove_eq (grows : Grows (place <+: ·) before after) :
    after.remove place = before.remove place := by
  induction grows with
  | refl => rfl
  | put _ free inside ih => rw [remove_put inside (below_of_find?_ne free), ih]

theorem find?_eq_of_remove_eq (below : place ≠ []) (same : after.remove place = before.remove place)
    (outside : ¬ place <+: other) : after.find? other = before.find? other := by
  have found := congrArg (·.find? other) same
  simpa only [find?_remove below, if_neg outside] using found

end Filters

section Removals

/--
The directory at a place has been removed with all that was in it, and everything else is as it was
before. A plain file at the place is no directory and has not been removed.
-/
structure Clears (before : Tree) (place : Path) (after : Tree) : Prop where
  noDirectory : after.isDirectory place = false
  gone : (∀ bytes, before.find? place ≠ some (.file bytes)) →
    ∀ rest, ∃ error, after.nodeAt (place ++ rest) = .error error
  kept : ∀ path, ¬ place <+: path → after.find? path = before.find? path

theorem isDirectory_eq_false (canonical : Canonical place)
    (different : ∀ path, tree.walk [] place = .ok path → tree.find? place ≠ some .directory) :
    tree.isDirectory place = false := by
  cases walked : tree.walk [] place with
  | error error => exact isDirectory_of_walk_error walked
  | ok path =>
      obtain rfl : path = place := eq_of_walk canonical walked
      rw [Bool.eq_false_iff, ne_eq, isDirectory_iff_of_walk walked]
      exact different _ walked

theorem clears_removeDirectory (tree : Tree) (canonical : Canonical place) (below : place ≠ []) :
    tree.Clears place (tree.removeDirectory place) := by
  unfold removeDirectory
  cases walked : tree.walk [] place with
  | error error =>
      constructor
      case noDirectory =>
        apply isDirectory_eq_false canonical
        intro path reached
        cases walked.symm.trans reached
      case gone =>
        intro _ rest
        exact ⟨error, by simp [nodeAt, walk_steps_append, walked, bind, Except.bind]⟩
      case kept => exact fun _ _ => rfl
  | ok path =>
      obtain rfl : path = place := eq_of_walk canonical walked
      dsimp only
      split
      case isTrue found =>
        have missing : (tree.remove path).find? path = none := by
          rw [find?_remove below, if_pos List.prefix_rfl]
        constructor
        case noDirectory => exact isDirectory_eq_false canonical fun _ _ => by simp [missing]
        case gone => exact fun _ rest => exists_nodeAt_error canonical missing rest
        case kept =>
          intro other outside
          rw [find?_remove below, if_neg outside]
      case isFalse different =>
        constructor
        case noDirectory => exact isDirectory_eq_false canonical fun _ _ => different
        case gone =>
          intro noFile rest
          apply exists_nodeAt_error canonical _ rest
          cases found : tree.find? path with
          | none => rfl
          | some node =>
              cases node with
              | directory => exact absurd found different
              | file bytes => exact absurd found (noFile bytes)
        case kept => exact fun _ _ => rfl

theorem removeDirectory_eq_remove (leads : tree.LeadsTo place) (canonical : Canonical place) :
    tree.removeDirectory place = tree.remove place := by
  rw [removeDirectory, leads.walk_eq canonical]
  exact if_pos (leads place List.prefix_rfl)

theorem Vacant.removeDirectory_eq (vacant : tree.Vacant place) (canonical : Canonical place)
    (below : place ≠ []) : tree.removeDirectory place = tree := by
  have missing : tree.find? place = none := by
    rw [← vacant.remove_eq, find?_remove below, if_pos List.prefix_rfl]
  unfold removeDirectory
  cases walked : tree.walk [] place with
  | error error => rfl
  | ok path =>
      obtain rfl : path = place := eq_of_walk canonical walked
      exact if_neg (by simp [missing])

/--
Whatever has happened at a place, the tree is known once the directory there is removed, provided
that all the rest is as it was.
-/
theorem removeDirectory_eq_of_remove_eq (canonical : Canonical place) (below : place ≠ [])
    (leads : before.LeadsTo place) (same : after.remove place = before.remove place)
    (leaves : after.find? place = some .directory ∨ after.Vacant place) :
    after.removeDirectory place = before.remove place := by
  rcases leaves with found | vacant
  case inr => rw [vacant.removeDirectory_eq canonical below, ← same, vacant.remove_eq]
  rw [← same]
  apply removeDirectory_eq_remove _ canonical
  intro above within
  by_cases atPlace : above = place
  · rwa [atPlace]
  · rw [find?_eq_of_remove_eq below same, leads above within]
    intro around
    exact atPlace (within.eq_of_length_le around.length_le)

end Removals

end Tree

namespace Change

open QueryPrep.Files.Tree

/-- A directory is made where nothing is, or else all stays as it is. -/
theorem makeDirectory_cases (tree : Tree) {place : Path} (canonical : Canonical place) :
    (∃ error, makeDirectory place tree = .error error tree) ∨
    (makeDirectory place tree = .ok () (tree.put place .directory) ∧
      tree.find? place = none ∧ (tree.put place .directory).LeadsTo place) := by
  unfold makeDirectory
  cases walked : tree.walk [] place with
  | error error => exact .inl ⟨error, rfl⟩
  | ok path =>
      obtain rfl : path = place := eq_of_walk canonical walked
      cases found : tree.find? path with
      | some node => exact .inl ⟨.alreadyExists, by simp [found]⟩
      | none =>
          refine .inr ⟨by simp [found], rfl, ?_⟩
          intro above within
          rw [find?_put (below_of_missing found)]
          split
          case isTrue => rfl
          case isFalse differs => exact find?_of_walk canonical walked within differs

end Change

end QueryPrep.Files
