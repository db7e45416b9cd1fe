import QueryPrep.Source.Scanner

/-!
# Progress of a scanner

A step that does not fail leads further into the text, so a scanner comes to the end of its text
after at most as many steps as there are characters left. With that bound out of the way, running
a scanner is stepping for as long as there is text.
-/

namespace QueryPrep.Source.Scanner

open QueryPrep.Graphql QueryPrep.Text

/-- The text ahead is what is left of the text behind the index. -/
theorem length_ahead (scanner : Scanner) :
    scanner.ahead.length = scanner.text.length - scanner.index := by
  rw [scanner.ahead_eq, List.length_drop]

/-- There is text ahead as long as the index has not reached the end. -/
theorem ahead_ne_nil_iff {scanner : Scanner} :
    scanner.ahead ≠ [] ↔ scanner.index < scanner.text.length := by
  rw [← List.length_pos_iff, length_ahead]
  omega

/-- What it takes for one scanner to be behind another in the same text. -/
structure Behind (scanner next : Scanner) : Prop where
  text_eq : next.text = scanner.text
  index_lt : scanner.index < next.index

theorem index_pass (scanner : Scanner) (count : Nat) :
    (scanner.pass count).index = scanner.index + count := rfl

/-- Blanks are passed, never gone back over. -/
theorem index_le_skipBlanks (scanner : Scanner) : scanner.index ≤ scanner.skipBlanks.index :=
  Nat.le_add_right _ _

/-- No keyword is empty. -/
theorem keyword_length_pos (kind : DefinitionKind) : 0 < kind.keyword.length := by
  cases kind <;> decide

/-- Behind a scanner that has text ahead, no scanner has more text ahead. -/
theorem Behind.length_ahead_lt {scanner next : Scanner} (behind : Behind scanner next)
    (more : scanner.ahead ≠ []) : next.ahead.length < scanner.ahead.length := by
  have room := ahead_ne_nil_iff.mp more
  have further := behind.index_lt
  rw [length_ahead, length_ahead, behind.text_eq]
  omega

/-- Looking for a keyword passes a character at least. -/
theorem behind_scan {scanner : Scanner} (more : scanner.ahead ≠ []) :
    Behind scanner scanner.scan := by
  have passed := index_le_skipBlanks scanner
  unfold scan
  dsimp only
  split
  case isTrue blank =>
    refine ⟨rfl, ?_⟩
    have done : scanner.skipBlanks.ahead = [] := List.isEmpty_iff.mp blank
    have reached := length_ahead scanner.skipBlanks
    have room := ahead_ne_nil_iff.mp more
    have same : scanner.skipBlanks.text.length = scanner.text.length := rfl
    rw [done, List.length_nil] at reached
    omega
  case isFalse =>
    split
    case h_1 kind _ =>
      have positive := keyword_length_pos kind
      refine ⟨rfl, ?_⟩
      simp only [index_pass]
      omega
    case h_2 =>
      refine ⟨rfl, ?_⟩
      rw [index_pass]
      omega

/-- Reading a name leads further. -/
theorem behind_of_readName {scanner next : Scanner} (read : readName scanner = .ok () next) :
    Behind scanner next := by
  have passed := index_le_skipBlanks scanner
  unfold readName at read
  dsimp only at read
  split at read
  · cases read
  · rename_i named
    have positive : 0 < (scanner.skipBlanks.ahead.takeWhile isNameContinue).length := by
      simpa [List.length_pos_iff, List.isEmpty_iff] using named
    split at read <;> cases read <;> refine ⟨rfl, ?_⟩ <;> simp only [index_pass] <;> omega

/-- Reading a body leads further. -/
theorem behind_of_readBody {scanner next : Scanner} (more : scanner.ahead ≠ [])
    (read : readBody scanner = .ok () next) : Behind scanner next := by
  unfold readBody at read
  split at read
  · cases read
    have room := List.length_pos_iff.mpr more
    refine ⟨rfl, ?_⟩
    rw [index_pass]
    omega
  · split at read
    · cases read
    · cases read
      refine ⟨rfl, ?_⟩
      simp only [index_pass]
      omega

/-- A step leads further. -/
theorem behind_of_step {scanner next : Scanner} (more : scanner.ahead ≠ [])
    (stepped : step scanner = .ok () next) : Behind scanner next := by
  unfold step at stepped
  split at stepped
  · cases stepped
    exact behind_scan more
  · exact behind_of_readName stepped
  · exact behind_of_readBody more stepped

/-- Two bounds that are both large enough give the same run. -/
theorem runWithin_eq_runWithin {rounds others : Nat} {scanner : Scanner}
    (enough : scanner.ahead.length ≤ rounds) (othersEnough : scanner.ahead.length ≤ others) :
    runWithin rounds scanner = runWithin others scanner := by
  induction rounds generalizing others scanner with
  | zero =>
    have done : scanner.ahead = [] := List.length_eq_zero_iff.mp (Nat.le_zero.mp enough)
    cases others with
    | zero => rfl
    | succ others => simp [runWithin, done]
  | succ rounds ih =>
    by_cases done : scanner.ahead = []
    · cases others <;> simp [runWithin, done]
    · cases others with
      | zero => exact absurd (List.length_eq_zero_iff.mp (Nat.le_zero.mp othersEnough)) done
      | succ others =>
        simp only [runWithin, List.isEmpty_iff, done, if_false]
        cases stepped : step scanner with
        | error error next => rfl
        | ok _ next =>
          have shorter := (behind_of_step done stepped).length_ahead_lt done
          exact ih (by omega) (by omega)

/-- A scanner at the end of its text does nothing. -/
theorem run_of_ahead_eq_nil {scanner : Scanner} (done : scanner.ahead = []) :
    run scanner = .ok () scanner := by
  simp [run, done, runWithin]

/-- As long as there is text, a scanner takes a step and goes on. -/
theorem run_of_ahead_ne_nil {scanner : Scanner} (more : scanner.ahead ≠ []) :
    run scanner =
      match step scanner with
      | .ok () next => run next
      | .error error next => .error error next := by
  have shorter : scanner.ahead.length ≤ scanner.ahead.length + 1 := Nat.le_succ _
  rw [run, runWithin_eq_runWithin (Nat.le_refl _) shorter, runWithin]
  simp only [List.isEmpty_iff, more, if_false]
  cases stepped : step scanner with
  | error error next => rfl
  | ok _ next =>
    have less := (behind_of_step more stepped).length_ahead_lt more
    exact runWithin_eq_runWithin (by omega) (Nat.le_refl _)

end QueryPrep.Source.Scanner
