import QueryPrep.Merge.Recursion

/-!
# Siblings by key

Merging takes siblings one after the other. This file shows that the order across keys does not
matter: one level of merging makes one selection of every group of siblings with the same key, and
the groups come in the order in which their keys first occur.

The main tool is `foldl_insertSelection_cons`. It splits what is inserted into merged siblings
between the first of them, which absorbs what has its key, and the others, which get the rest.
-/

namespace QueryPrep.Graphql

/-- The siblings with a given key, in their order. -/
def withKey (key : String) (siblings : List Selection) : List Selection :=
  siblings.filter (·.key == key)

/-- The siblings with any other key, in their order. -/
def withoutKey (key : String) (siblings : List Selection) : List Selection :=
  siblings.filter (·.key != key)

/--
One selection for every group of siblings with the same key, in the order in which the keys first
occur. `combine` makes it of the first of the group and the others.
-/
def groupWith (combine : Selection → List Selection → Selection) :
    List Selection → List Selection
  | [] => []
  | first :: rest =>
      combine first (withKey first.key rest) :: groupWith combine (withoutKey first.key rest)
termination_by siblings => siblings.length
decreasing_by exact Nat.lt_succ_of_le (List.length_filter_le _ _)

section Keys

variable {key : String} {selection : Selection} {siblings : List Selection}

theorem mem_withKey :
    selection ∈ withKey key siblings ↔ selection ∈ siblings ∧ selection.key = key := by
  simp [withKey]

theorem mem_withoutKey :
    selection ∈ withoutKey key siblings ↔ selection ∈ siblings ∧ selection.key ≠ key := by
  simp [withoutKey]

theorem withKey_cons_of_eq (same : selection.key = key) :
    withKey key (selection :: siblings) = selection :: withKey key siblings := by
  simp [withKey, same]

theorem withKey_cons_of_ne (differs : selection.key ≠ key) :
    withKey key (selection :: siblings) = withKey key siblings := by
  simp [withKey, differs]

theorem withoutKey_cons_of_eq (same : selection.key = key) :
    withoutKey key (selection :: siblings) = withoutKey key siblings := by
  simp [withoutKey, same]

theorem withoutKey_cons_of_ne (differs : selection.key ≠ key) :
    withoutKey key (selection :: siblings) = selection :: withoutKey key siblings := by
  simp [withoutKey, differs]

theorem withKey_withoutKey_self : withKey key (withoutKey key siblings) = [] := by
  simp [withKey, withoutKey]

theorem withKey_eq_nil_iff : withKey key siblings = [] ↔ key ∉ siblings.map Selection.key := by
  simp [withKey]

theorem withoutKey_eq_self (missing : key ∉ siblings.map Selection.key) :
    withoutKey key siblings = siblings := by
  simpa [withoutKey] using missing

end Keys

section Grouping

variable {combine other : Selection → List Selection → Selection} {siblings : List Selection}

/-- Every group keeps the key that its members share. -/
def KeepsKeys (combine : Selection → List Selection → Selection) : Prop :=
  ∀ first others, (combine first others).key = first.key

/-- Siblings that are told apart by their keys alone are grouped on their own. -/
theorem filter_groupWith (keeps : KeepsKeys combine) {keep : Selection → Bool}
    (byKey : ∀ first second, first.key = second.key → keep first = keep second) :
    (groupWith combine siblings).filter keep = groupWith combine (siblings.filter keep) := by
  fun_induction groupWith combine siblings with
  | case1 => simp [groupWith]
  | case2 first rest ih =>
      -- Either all siblings with the first key are kept or none of them.
      have combined := byKey _ _ (keeps first (withKey first.key rest))
      by_cases kept : keep first = true
      · have group : withKey first.key (rest.filter keep) = withKey first.key rest := by
          simp only [withKey, List.filter_filter]
          apply List.filter_congr
          intro member _
          by_cases same : member.key = first.key <;> simp [same, byKey member first, kept]
        have others : withoutKey first.key (rest.filter keep) =
            (withoutKey first.key rest).filter keep := by
          simp only [withoutKey, List.filter_filter, Bool.and_comm]
        simp [combined, kept, groupWith, group, others, ih]
      · have others : (withoutKey first.key rest).filter keep = rest.filter keep := by
          simp only [withoutKey, List.filter_filter]
          apply List.filter_congr
          intro member _
          by_cases same : member.key = first.key <;> simp [same, byKey member first, kept]
        simp [combined, kept, ih, others]

theorem withoutKey_groupWith (keeps : KeepsKeys combine) (key : String) :
    withoutKey key (groupWith combine siblings) = groupWith combine (withoutKey key siblings) :=
  filter_groupWith keeps fun _ _ same => by rw [same]

theorem withKey_groupWith (keeps : KeepsKeys combine) (key : String) :
    withKey key (groupWith combine siblings) = groupWith combine (withKey key siblings) :=
  filter_groupWith keeps fun _ _ same => by rw [same]

theorem withKey_groupWith_of_eq_nil (keeps : KeepsKeys combine) {key : String}
    (none : withKey key siblings = []) : withKey key (groupWith combine siblings) = [] := by
  rw [withKey_groupWith keeps, none, groupWith]

theorem withKey_groupWith_of_eq_cons (keeps : KeepsKeys combine) {key : String} {first : Selection}
    {others : List Selection} (some : withKey key siblings = first :: others) :
    withKey key (groupWith combine siblings) = [combine first others] := by
  have sameKey : ∀ member ∈ first :: others, member.key = key := by
    intro member present
    rw [← some] at present
    exact (mem_withKey.mp present).2
  have group : withKey first.key others = others := by
    simp_all [withKey]
  have rest : withoutKey first.key others = [] := by
    simp_all [withoutKey]
  rw [withKey_groupWith keeps, some, groupWith, group, rest, groupWith]

/-- The groups come in the order in which their keys first occur. -/
theorem map_key_groupWith (keeps : KeepsKeys combine) (siblings : List Selection) :
    (groupWith combine siblings).map Selection.key = (siblings.map Selection.key).eraseDups := by
  fun_induction groupWith combine siblings with
  | case1 => simp
  | case2 first rest ih =>
      have others : (rest.map Selection.key).filter (fun key => !key == first.key) =
          (withoutKey first.key rest).map Selection.key := by
        simp [withoutKey, List.filter_map, Function.comp_def, bne]
      rw [List.map_cons, List.map_cons, List.eraseDups_cons, keeps, ih, others]

theorem nodup_map_key_groupWith (keeps : KeepsKeys combine) (siblings : List Selection) :
    ((groupWith combine siblings).map Selection.key).Nodup := by
  fun_induction groupWith combine siblings with
  | case1 => simp
  | case2 first rest ih =>
      rw [List.map_cons, List.nodup_cons, keeps]
      refine ⟨?_, ih⟩
      apply withKey_eq_nil_iff.mp
      exact withKey_groupWith_of_eq_nil keeps withKey_withoutKey_self

/-- Only siblings that do share a key are ever combined. -/
theorem groupWith_congr
    (agree : ∀ first others, (∀ member ∈ first :: others, member ∈ siblings) →
      (∀ member ∈ others, member.key = first.key) → combine first others = other first others) :
    groupWith combine siblings = groupWith other siblings := by
  fun_induction groupWith combine siblings with
  | case1 => simp [groupWith]
  | case2 first rest ih =>
      rw [groupWith, ih, agree]
      · intro member present
        simp only [List.mem_cons, mem_withKey] at present ⊢
        exact present.imp_right And.left
      · intro member present
        exact (mem_withKey.mp present).2
      · intro first others members
        apply agree
        intro member present
        exact List.mem_cons_of_mem _ (mem_withoutKey.mp (members member present)).1

theorem groupWith_map {change : Selection → Selection}
    (keeps : ∀ selection, (change selection).key = selection.key) :
    groupWith combine (siblings.map change) =
      groupWith (fun first others => combine (change first) (others.map change)) siblings := by
  induction siblings using groupWith.induct with
  | case1 => simp [groupWith]
  | case2 first rest ih =>
      rw [List.map_cons, groupWith, groupWith, keeps, ← ih]
      simp [withKey, withoutKey, List.filter_map, Function.comp_def, keeps]

end Grouping

section Levels

variable {merge : List Selection → List Selection}

/-- A sibling among others absorbs what has its key, and the rest goes to the others. -/
theorem foldl_insertSelection_cons (first : Selection) (merged siblings : List Selection) :
    siblings.foldl (fun merged selection => insertSelection merge selection merged)
        (first :: merged) =
      (withKey first.key siblings).foldl (Selection.absorb merge) first ::
        (withoutKey first.key siblings).foldl
          (fun merged selection => insertSelection merge selection merged) merged := by
  induction siblings generalizing first merged with
  | nil => rfl
  | cons selection rest ih =>
      by_cases same : first.key = selection.key
      · rw [List.foldl_cons, withKey_cons_of_eq same.symm, withoutKey_cons_of_eq same.symm]
        simp only [insertSelection, if_pos same, ih, Selection.key_absorb, List.foldl_cons]
      · rw [List.foldl_cons, withKey_cons_of_ne (Ne.symm same),
          withoutKey_cons_of_ne (Ne.symm same)]
        simp only [insertSelection, if_neg same, ih, List.foldl_cons]

/-- The first of a group after it has absorbed the others, one after the other. -/
def absorbEach (merge : List Selection → List Selection) (first : Selection)
    (others : List Selection) : Selection :=
  others.foldl (Selection.absorb merge) first

theorem keepsKeys_absorbEach : KeepsKeys (absorbEach merge) := by
  intro first others
  induction others generalizing first with
  | nil => rfl
  | cons selection rest ih =>
      rw [absorbEach, List.foldl_cons]
      exact (ih _).trans (first.key_absorb merge selection)

/-- One level of merging lets the first of every group absorb the others. -/
theorem mergeLevel_eq_groupWith (siblings : List Selection) :
    mergeLevel merge siblings = groupWith (absorbEach merge) siblings := by
  rw [mergeLevel_eq_foldl]
  fun_induction groupWith (absorbEach merge) siblings with
  | case1 => rfl
  | case2 first rest ih =>
      rw [List.foldl_cons, insertSelection, foldl_insertSelection_cons, ih]
      rfl

theorem mergeLevel_eq_self {siblings : List Selection}
    (distinct : (siblings.map Selection.key).Nodup) : mergeLevel merge siblings = siblings := by
  rw [mergeLevel_eq_groupWith]
  induction siblings with
  | nil => simp [groupWith]
  | cons first rest ih =>
      rw [List.map_cons, List.nodup_cons] at distinct
      rw [groupWith, withKey_eq_nil_iff.mpr distinct.1, withoutKey_eq_self distinct.1,
        ih distinct.2]
      rfl

end Levels

end QueryPrep.Graphql
