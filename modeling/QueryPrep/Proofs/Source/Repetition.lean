import QueryPrep.Proofs.Source.Scanning
import Mathlib.Logic.Function.Iterate

/-!
# Splitting again

A scanner stays usable after it has split its text. It stands at the end of the text then, or where
a name is missing, and each further call comes to the same end from there. Nothing is passed or
found by it, so the scanner is the same after any number of calls as after the first.
-/

namespace QueryPrep.Source.Scanner

open QueryPrep.Graphql QueryPrep.Text

variable {scanner next final : Scanner} {error : SplitError}

section Steps

/--
What a step relies on: a name is not read twice, and names and bodies belong to a definition that
has begun.
-/
structure Ready (scanner : Scanner) : Prop where
  unnamed : scanner.state = .inName → scanner.ahead ≠ [] → scanner.name = ""
  begun : scanner.state ≠ .scanning → scanner.kind ≠ none

theorem Ready.of_scanning (scanning : scanner.state = .scanning) : scanner.Ready := by
  constructor <;> simp [scanning]

theorem ready_scan (scanning : scanner.state = .scanning) : scanner.scan.Ready := by
  have skipped : scanner.skipBlanks.state = .scanning := scanning
  unfold scan
  dsimp only
  split
  case isTrue => exact .of_scanning skipped
  case isFalse =>
    split
    case h_1 kind _ => constructor <;> simp
    case h_2 => exact .of_scanning skipped

/-- A name is missing, or the scanner comes to a body or to the end of the text. -/
theorem readName_cases (scanner : Scanner) :
    (scanner.skipBlanks.ahead.takeWhile isNameContinue = [] ∧
      readName scanner = .error (.malformed scanner.skipBlanks.index) scanner.skipBlanks) ∨
    ∃ next, readName scanner = .ok () next ∧ next.kind = scanner.kind ∧
      (next.state = .inBody ∨ next.ahead = []) := by
  unfold readName
  dsimp only
  split
  case isTrue missing => exact .inl ⟨List.isEmpty_iff.mp missing, rfl⟩
  case isFalse =>
    right
    split
    case isTrue ended => exact ⟨_, rfl, rfl, .inr (List.isEmpty_iff.mp ended)⟩
    case isFalse => exact ⟨_, rfl, rfl, .inl rfl⟩

/-- A body is not closed, or a definition is complete with it. -/
theorem readBody_cases (begun : scanner.kind ≠ none) :
    ∃ next, readBody scanner = .ok () next ∧
      (next.state = .scanning ∨
        next.state = scanner.state ∧ next.kind = scanner.kind ∧ next.ahead = []) := by
  unfold readBody
  split
  case h_1 => exact ⟨_, rfl, .inr ⟨rfl, rfl, List.drop_length⟩⟩
  case h_2 =>
    split
    case h_1 missing => exact absurd missing begun
    case h_2 => exact ⟨_, rfl, .inl rfl⟩

theorem Ready.of_step (ready : scanner.Ready) (stepped : step scanner = .ok () next) :
    next.Ready := by
  unfold step at stepped
  split at stepped
  case h_1 scanning =>
    cases stepped
    exact ready_scan scanning
  case h_2 naming =>
    have begun := ready.begun (by simp [naming])
    rcases readName_cases scanner with ⟨_, failed⟩ | ⟨other, read, kind, place⟩
    · cases stepped.symm.trans failed
    · cases stepped.symm.trans read
      refine ⟨?_, fun _ => kind ▸ begun⟩
      intro stillNaming more
      rcases place with inside | ended
      · simp [inside] at stillNaming
      · exact absurd ended more
  case h_3 inside =>
    have begun := ready.begun (by simp [inside])
    rcases readBody_cases begun with ⟨other, read, scanning | ⟨state, kind, ended⟩⟩
    · cases stepped.symm.trans read
      exact .of_scanning scanning
    · cases stepped.symm.trans read
      exact ⟨fun _ more => absurd ended more, fun _ => kind ▸ begun⟩

end Steps

section Failures

theorem skipBlanks_skipBlanks (scanner : Scanner) :
    scanner.skipBlanks.skipBlanks = scanner.skipBlanks := by
  rcases exists_nameAhead scanner.ahead with ⟨blanks, name, rest, named⟩
  have behind : scanner.skipBlanks.ahead = name ++ rest := by
    rw [named.skipBlanks_eq]
    exact ahead_pass_of_append named.split
  cases ahead : scanner.skipBlanks.ahead with
  | nil =>
      rw [skipBlanks, ahead]
      rfl
  | cons first others =>
      apply skipBlanks_eq_self ahead
      apply named.visible
      rw [← behind, ahead]
      rfl

/-- A step fails only where a name is missing, and with it fails whatever is tried from there. -/
theorem split_of_step_eq_error (ready : scanner.Ready) (more : scanner.ahead ≠ [])
    (stepped : step scanner = .error error final) :
    (∃ position, error = .malformed position) ∧ split final = .error error final := by
  unfold step at stepped
  split at stepped
  case h_1 => cases stepped
  case h_2 naming =>
    rcases readName_cases scanner with ⟨missing, failed⟩ | ⟨other, read, _⟩
    case inr => cases stepped.symm.trans read
    cases stepped.symm.trans failed
    refine ⟨⟨_, rfl⟩, ?_⟩
    have stillNaming : scanner.skipBlanks.state = .inName := naming
    have unnamed : scanner.skipBlanks.name = "" := ready.unnamed naming more
    by_cases ended : scanner.skipBlanks.ahead = []
    · rw [split, run_of_ahead_eq_nil ended]
      simp only [conclude, stillNaming, unnamed, if_true]
    · have again : step scanner.skipBlanks =
          .error (.malformed scanner.skipBlanks.index) scanner.skipBlanks := by
        rw [step, stillNaming]
        simp only [readName, skipBlanks_skipBlanks, missing, List.isEmpty_nil, if_true]
      rw [split, run_of_ahead_ne_nil ended, again]
  case h_3 inside =>
    rcases readBody_cases (ready.begun (by simp [inside])) with ⟨other, read, _⟩
    cases stepped.symm.trans read

/-- A run comes to the end of the text, or it fails and would fail again. -/
theorem run_cases (ready : scanner.Ready) :
    (∃ final, run scanner = .ok () final ∧ final.ahead = []) ∨
    ∃ position final, run scanner = .error (.malformed position) final ∧
      split final = .error (.malformed position) final := by
  -- A step leaves less text ahead, and the scanner behind it is ready again.
  induction length : scanner.ahead.length using Nat.strong_induction_on generalizing scanner with
  | h length ih =>
  subst length
  by_cases done : scanner.ahead = []
  · exact .inl ⟨scanner, run_of_ahead_eq_nil done, done⟩
  rw [run_of_ahead_ne_nil done]
  cases stepped : step scanner with
  | error error final =>
      rcases split_of_step_eq_error ready done stepped with ⟨⟨position, rfl⟩, again⟩
      exact .inr ⟨position, final, rfl, again⟩
  | ok _ next =>
      have shorter := (behind_of_step done stepped).length_ahead_lt done
      exact ih _ shorter (ready.of_step stepped) rfl

end Failures

section Calls

/-- The scanner that a call leaves behind. -/
def afterSplit (scanner : Scanner) : Scanner :=
  match split scanner with
  | .ok _ final => final
  | .error _ final => final

theorem split_afterSplit (ready : scanner.Ready) : split scanner.afterSplit = split scanner := by
  rcases run_cases ready with ⟨final, ran, done⟩ | ⟨position, final, ran, again⟩
  · have again : split final = split scanner := by
      rw [split, split, run_of_ahead_eq_nil done, ran]
    have left : scanner.afterSplit = final := by
      simp only [afterSplit, split, ran]
      cases final.conclude <;> rfl
    rw [left, again]
  · have failed : split scanner = .error (.malformed position) final := by rw [split, ran]
    have left : scanner.afterSplit = final := by rw [afterSplit, failed]
    rw [left, again, failed]

theorem afterSplit_afterSplit (ready : scanner.Ready) :
    scanner.afterSplit.afterSplit = scanner.afterSplit := by
  rw [afterSplit, split_afterSplit ready]
  rfl

theorem split_ne_notBegun (ready : scanner.Ready) : split scanner ≠ .error .notBegun final := by
  rcases run_cases ready with ⟨last, ran, _⟩ | ⟨position, last, ran, _⟩
  · rw [split, ran]
    cases state : last.state with
    | scanning => simp [conclude, state]
    | inName => by_cases unnamed : last.name = "" <;> simp [conclude, state, unnamed]
    | inBody => simp [conclude, state]
  · simp [split, ran]

/-- From where a call has ended, another one finds nothing. -/
theorem definitionFound_not_mem_splitEvents (ready : scanner.Ready) (kind : DefinitionKind)
    (name : String) : Event.definitionFound kind name ∉ splitEvents scanner.afterSplit := by
  have same := afterSplit_afterSplit ready
  have nothing : ∀ place : Scanner, foundSince place place = [] := by
    intro place
    rw [foundSince, List.drop_length, List.map_nil]
  rw [afterSplit] at same
  rw [splitEvents]
  cases again : split scanner.afterSplit with
  | ok definitions final =>
      rw [again] at same
      simp only [same, nothing, skipped, List.nil_append]
      split <;> simp
  | error error final =>
      rw [again] at same
      simp [same, nothing]

/--
Splitting a text comes to a list of definitions or to one of two errors, and every further call on
the same scanner comes to the same, leaves the scanner as it is and finds no definition anew.
-/
theorem split_again (text : String) (calls : Nat) :
    (∀ final, split (ofText text) ≠ .error .notBegun final) ∧
    afterSplit^[calls + 1] (ofText text) = (ofText text).afterSplit ∧
    split (afterSplit^[calls + 1] (ofText text)) = split (ofText text) ∧
    ∀ kind name, Event.definitionFound kind name ∉
      splitEvents (afterSplit^[calls + 1] (ofText text)) := by
  have ready : (ofText text).Ready := .of_scanning rfl
  have same : afterSplit^[calls + 1] (ofText text) = (ofText text).afterSplit := by
    rw [Function.iterate_succ_apply]
    exact Function.iterate_fixed (afterSplit_afterSplit ready) calls
  rw [same]
  exact ⟨fun _ => split_ne_notBegun ready, rfl, split_afterSplit ready,
    definitionFound_not_mem_splitEvents ready⟩

end Calls

end QueryPrep.Source.Scanner
