import QueryPrep.Merge.Selections

/-!
# The recursion of merging

Merging never makes siblings nest more deeply, so the nesting depth that bounds the recursion is
enough: a larger bound changes nothing. With the bound out of the way, merging is one level of
merging whose sets are merged in the same manner.
-/

namespace QueryPrep.Graphql

namespace Selection

theorem nestingEach_append (first second : List Selection) :
    nestingEach (first ++ second) = max (nestingEach first) (nestingEach second) := by
  induction first with
  | nil => simp [nestingEach]
  | cons selection rest ih => simp [nestingEach, ih, Nat.max_assoc]

/-- The selections of a set lie at least one level below the node that holds it. -/
theorem nestingEach_lt_of_selections {head : Head} {set : Option (List Selection)} {depth : Nat}
    (bounded : (Selection.node head set).nesting ≤ depth) :
    set = none ∨ nestingEach (set.getD []) < depth := by
  cases set with
  | none => exact Or.inl rfl
  | some selections =>
    right
    simp only [nesting] at bounded
    simp only [Option.getD_some]
    omega

/-- When two sets come together, their selections lie below the nodes that hold them. -/
theorem nestingEach_append_lt {first second : Head} {mine theirs : Option (List Selection)}
    {depth : Nat} (bounded : (Selection.node first mine).nesting ≤ depth)
    (otherBounded : (Selection.node second theirs).nesting ≤ depth)
    (present : mine ≠ none ∨ theirs ≠ none) :
    nestingEach (mine.getD [] ++ theirs.getD []) < depth := by
  rw [nestingEach_append]
  rcases nestingEach_lt_of_selections bounded with rfl | mineBelow <;>
    rcases nestingEach_lt_of_selections otherBounded with rfl | theirsBelow
  · simp at present
  · simpa [nestingEach] using theirsBelow
  · simpa [nestingEach] using mineBelow
  · omega

/-- Absorbing does not exceed a depth that both selections keep to. -/
theorem nesting_absorb_le {merge : List Selection → List Selection} {existing selection : Selection}
    {depth : Nat} (shrinks : ∀ selections, nestingEach (merge selections) ≤ nestingEach selections)
    (bounded : existing.nesting ≤ depth) (otherBounded : selection.nesting ≤ depth) :
    (existing.absorb merge selection).nesting ≤ depth := by
  cases existing with
  | spread name directives => exact bounded
  | node head mine =>
    cases selection with
    | spread name directives =>
      cases mine <;> exact bounded
    | node other theirs =>
      by_cases present : mine ≠ none ∨ theirs ≠ none
      · have below := nestingEach_append_lt bounded otherBounded present
        have merged := shrinks (mine.getD [] ++ theirs.getD [])
        cases mine <;> cases theirs <;> simp only [absorb, nesting] <;> omega
      · have missing : mine = none ∧ theirs = none := by simpa using present
        rw [missing.1, missing.2]
        simp [absorb, nesting]

/-- Absorbing only uses `merge` below the depth that both selections keep to. -/
theorem absorb_congr {merge other : List Selection → List Selection}
    {existing selection : Selection} {depth : Nat}
    (agree : ∀ selections, nestingEach selections < depth → merge selections = other selections)
    (bounded : existing.nesting ≤ depth) (otherBounded : selection.nesting ≤ depth) :
    existing.absorb merge selection = existing.absorb other selection := by
  cases existing with
  | spread name directives => rfl
  | node head mine =>
    cases selection with
    | spread name directives => cases mine <;> rfl
    | node otherHead theirs =>
      by_cases present : mine ≠ none ∨ theirs ≠ none
      · have same := agree _ (nestingEach_append_lt bounded otherBounded present)
        cases mine <;> cases theirs <;> simp only [absorb, same]
      · have missing : mine = none ∧ theirs = none := by simpa using present
        rw [missing.1, missing.2]
        rfl

end Selection

open Selection

/-- One more selection does not exceed a depth that it keeps to itself. -/
theorem nestingEach_insertSelection_le {merge : List Selection → List Selection}
    {selection : Selection} {merged : List Selection} {depth : Nat}
    (shrinks : ∀ selections, nestingEach (merge selections) ≤ nestingEach selections)
    (bounded : selection.nesting ≤ depth) (mergedBounded : nestingEach merged ≤ depth) :
    nestingEach (insertSelection merge selection merged) ≤ depth := by
  induction merged with
  | nil => simpa [insertSelection, nestingEach] using bounded
  | cons first rest ih =>
    simp only [nestingEach, Nat.max_le] at mergedBounded
    simp only [insertSelection]
    split
    · simp only [nestingEach, Nat.max_le]
      exact ⟨nesting_absorb_le shrinks mergedBounded.1 bounded, mergedBounded.2⟩
    · simp only [nestingEach, Nat.max_le]
      exact ⟨mergedBounded.1, ih mergedBounded.2⟩

/-- Inserting only uses `merge` below the depth that everything keeps to. -/
theorem insertSelection_congr {merge other : List Selection → List Selection}
    {selection : Selection} {merged : List Selection} {depth : Nat}
    (agree : ∀ selections, nestingEach selections < depth → merge selections = other selections)
    (bounded : selection.nesting ≤ depth) (mergedBounded : nestingEach merged ≤ depth) :
    insertSelection merge selection merged = insertSelection other selection merged := by
  induction merged with
  | nil => rfl
  | cons first rest ih =>
    simp only [nestingEach, Nat.max_le] at mergedBounded
    simp only [insertSelection, absorb_congr agree mergedBounded.1 bounded, ih mergedBounded.2]

/-- Merging one level, from siblings that have been merged already, keeps to a depth. -/
theorem nestingEach_foldl_insertSelection_le {merge : List Selection → List Selection}
    {depth : Nat}
    (shrinks : ∀ selections, nestingEach (merge selections) ≤ nestingEach selections)
    (selections merged : List Selection) (bounded : nestingEach selections ≤ depth)
    (mergedBounded : nestingEach merged ≤ depth) :
    nestingEach (selections.foldl (fun merged selection =>
      insertSelection merge selection merged) merged) ≤ depth := by
  induction selections generalizing merged with
  | nil => exact mergedBounded
  | cons selection rest ih =>
    simp only [nestingEach, Nat.max_le] at bounded
    exact ih _ bounded.2 (nestingEach_insertSelection_le shrinks bounded.1 mergedBounded)

/-- One level of merging does not make siblings nest more deeply. -/
theorem nestingEach_mergeLevel_le {merge : List Selection → List Selection}
    (shrinks : ∀ selections, nestingEach (merge selections) ≤ nestingEach selections)
    (selections : List Selection) :
    nestingEach (mergeLevel merge selections) ≤ nestingEach selections := by
  rw [mergeLevel_eq_foldl]
  exact nestingEach_foldl_insertSelection_le shrinks selections [] (Nat.le_refl _) (Nat.zero_le _)

/-- One level of merging only uses `merge` below the depth of the siblings. -/
theorem mergeLevel_congr {merge other : List Selection → List Selection} {depth : Nat}
    (shrinks : ∀ selections, nestingEach (merge selections) ≤ nestingEach selections)
    (agree : ∀ selections, nestingEach selections < depth → merge selections = other selections)
    {selections : List Selection} (bounded : nestingEach selections ≤ depth) :
    mergeLevel merge selections = mergeLevel other selections := by
  have general : ∀ merged : List Selection, nestingEach merged ≤ depth →
      selections.foldl (fun merged selection => insertSelection merge selection merged) merged =
        selections.foldl
          (fun merged selection => insertSelection other selection merged) merged := by
    induction selections with
    | nil => intro merged _; rfl
    | cons selection rest ih =>
      intro merged mergedBounded
      simp only [nestingEach, Nat.max_le] at bounded
      simp only [List.foldl_cons]
      rw [← insertSelection_congr agree bounded.1 mergedBounded]
      exact ih bounded.2 _ (nestingEach_insertSelection_le shrinks bounded.1 mergedBounded)
  rw [mergeLevel_eq_foldl, mergeLevel_eq_foldl]
  exact general [] (Nat.zero_le _)

/-- Merging does not make siblings nest more deeply, whatever the bound. -/
theorem nestingEach_mergeWithin_le (depth : Nat) (selections : List Selection) :
    nestingEach (mergeWithin depth selections) ≤ nestingEach selections := by
  induction depth generalizing selections with
  | zero => exact nestingEach_mergeLevel_le (fun _ => Nat.le_refl _) selections
  | succ depth ih => exact nestingEach_mergeLevel_le ih selections

/-- A bound that is large enough may be raised by one. -/
theorem mergeWithin_succ_eq {depth : Nat} {selections : List Selection}
    (enough : nestingEach selections ≤ depth) :
    mergeWithin (depth + 1) selections = mergeWithin depth selections := by
  induction depth generalizing selections with
  | zero =>
    exact mergeLevel_congr (nestingEach_mergeWithin_le 0)
      (fun _ below => absurd below (Nat.not_lt_zero _)) enough
  | succ depth ih =>
    exact mergeLevel_congr (nestingEach_mergeWithin_le (depth + 1))
      (fun _ below => ih (Nat.le_of_lt_succ below)) enough

/-- Every bound that is large enough gives the merged siblings. -/
theorem mergeWithin_eq_mergeSelections {depth : Nat} {selections : List Selection}
    (enough : nestingEach selections ≤ depth) :
    mergeWithin depth selections = mergeSelections selections := by
  induction enough with
  | refl => rfl
  | step enough ih => rw [mergeWithin_succ_eq enough, ih]

/-- Merged siblings nest no more deeply than the siblings did. -/
theorem nestingEach_mergeSelections_le (selections : List Selection) :
    nestingEach (mergeSelections selections) ≤ nestingEach selections :=
  nestingEach_mergeWithin_le _ selections

/-- Merging is one level of merging, whose sets are merged in the same manner. -/
theorem mergeSelections_eq_mergeLevel (selections : List Selection) :
    mergeSelections selections = mergeLevel mergeSelections selections := by
  rw [← mergeWithin_eq_mergeSelections (Nat.le_succ (nestingEach selections))]
  exact mergeLevel_congr (nestingEach_mergeWithin_le _)
    (fun _ below => mergeWithin_eq_mergeSelections (Nat.le_of_lt below)) (Nat.le_refl _)

end QueryPrep.Graphql
