import QueryPrep.Graphql.Lexer

/-!
# Progress of reading tokens

Every token takes a character at least, so a text has no more tokens than characters. With that
bound out of the way, the tokens of a text are the first one and the tokens of what follows it.
-/

namespace QueryPrep.Graphql

/-- A reader that goes on after another one succeeds only if the other one does. -/
theorem exists_of_bind_eq_ok {α β : Type} {first : Except SyntaxError α}
    {next : α → Except SyntaxError β} {result : β} (read : first >>= next = .ok result) :
    ∃ answer, first = .ok answer ∧ next answer = .ok result := by
  cases first with
  | error error => cases read
  | ok answer => exact ⟨answer, rfl, read⟩

theorem suffix_skipIgnored (inComment : Bool) (text : List Char) :
    skipIgnored inComment text <:+ text := by
  fun_induction skipIgnored inComment text with
  | case1 => exact List.suffix_rfl
  | case2 character rest ih => exact ih.trans (List.suffix_cons _ _)
  | case3 character rest _ ih => exact ih.trans (List.suffix_cons _ _)
  | case4 rest _ ih => exact ih.trans (List.suffix_cons _ _)
  | case5 => exact List.suffix_rfl

/-! ## Numbers -/

/-- The characters that numbers are written with. -/
def isNumeric (character : Char) : Bool :=
  character.isDigit || ['.', '+', '-', 'e', 'E'].contains character

section Numbers

variable {text digits following : List Char}

theorem split_of_readDigits (read : readDigits text = .ok (digits, following)) :
    text = digits ++ following ∧ digits ≠ [] ∧ digits.all isNumeric := by
  unfold readDigits at read
  split at read
  · cases read
  · rename_i first rest
    split at read
    · rename_i digit
      cases read
      refine ⟨by simp, by simp, ?_⟩
      rw [List.all_cons, Bool.and_eq_true]
      refine ⟨by simp [isNumeric, digit], List.all_eq_true.mpr ?_⟩
      intro character member
      simp [isNumeric, List.all_eq_true.mp List.all_takeWhile character member]
    · cases read

theorem split_of_readWhole (read : readWhole text = .ok (digits, following)) :
    text = digits ++ following ∧ digits ≠ [] ∧ digits.all isNumeric := by
  unfold readWhole at read
  split at read
  · split at read
    · cases read
    · cases read
      exact ⟨rfl, by simp, by decide⟩
  · exact split_of_readDigits read

theorem split_of_readFraction (read : readFraction text = .ok (digits, following)) :
    text = digits ++ following ∧ digits.all isNumeric := by
  unfold readFraction at read
  split at read
  · obtain ⟨answer, digitsRead, done⟩ := exists_of_bind_eq_ok read
    cases done
    obtain ⟨split, _, numeric⟩ := split_of_readDigits digitsRead
    refine ⟨by rw [split]; rfl, ?_⟩
    rw [List.all_cons, numeric]
    rfl
  · cases read
    exact ⟨rfl, rfl⟩

theorem split_of_readSign (text : List Char) :
    text = (readSign text).1 ++ (readSign text).2 ∧ (readSign text).1.all isNumeric := by
  unfold readSign
  split <;> exact ⟨rfl, rfl⟩

theorem split_of_readExponent (read : readExponent text = .ok (digits, following)) :
    text = digits ++ following ∧ digits.all isNumeric := by
  unfold readExponent at read
  split at read
  · cases read
    exact ⟨rfl, rfl⟩
  · rename_i letter rest
    split at read
    · rename_i exponent
      obtain ⟨answer, digitsRead, done⟩ := exists_of_bind_eq_ok read
      cases done
      obtain ⟨split, _, numeric⟩ := split_of_readDigits digitsRead
      obtain ⟨signSplit, signNumeric⟩ := split_of_readSign rest
      have letterNumeric : isNumeric letter = true := by
        rcases exponent with rfl | rfl <;> decide
      refine ⟨?_, by simp [letterNumeric, signNumeric, numeric]⟩
      rw [List.append_assoc, List.cons_append, ← split, ← signSplit]
    · cases read
      exact ⟨rfl, rfl⟩

theorem split_of_readUnsigned {integral : Bool}
    (read : readUnsigned text = .ok (integral, digits, following)) :
    text = digits ++ following ∧ digits ≠ [] ∧ digits.all isNumeric := by
  unfold readUnsigned at read
  obtain ⟨whole, wholeRead, read⟩ := exists_of_bind_eq_ok read
  obtain ⟨fraction, fractionRead, read⟩ := exists_of_bind_eq_ok read
  obtain ⟨exponent, exponentRead, read⟩ := exists_of_bind_eq_ok read
  obtain ⟨_, _, read⟩ := exists_of_bind_eq_ok read
  cases read
  obtain ⟨wholeSplit, present, wholeNumeric⟩ := split_of_readWhole wholeRead
  obtain ⟨fractionSplit, fractionNumeric⟩ := split_of_readFraction fractionRead
  obtain ⟨exponentSplit, exponentNumeric⟩ := split_of_readExponent exponentRead
  refine ⟨?_, by simp [present], by simp [wholeNumeric, fractionNumeric, exponentNumeric]⟩
  rw [wholeSplit, fractionSplit, exponentSplit]
  simp

theorem split_of_readMinus (first : Char) (rest : List Char) :
    first :: rest = (readMinus first rest).1 ++ (readMinus first rest).2 ∧
      (readMinus first rest).1.all isNumeric := by
  unfold readMinus
  split
  · rename_i minus
    exact ⟨by rw [minus]; rfl, rfl⟩
  · exact ⟨rfl, rfl⟩

theorem split_of_readNumber {first : Char} {rest : List Char} {lexeme : Lexeme}
    (read : readNumber first rest = .ok (lexeme, following)) :
    ∃ spelled, first :: rest = spelled ++ following ∧ spelled ≠ [] ∧ spelled.all isNumeric ∧
      (lexeme = .int (String.ofList spelled) ∨ lexeme = .float (String.ofList spelled)) := by
  unfold readNumber at read
  obtain ⟨number, numberRead, read⟩ := exists_of_bind_eq_ok read
  cases read
  obtain ⟨signSplit, signNumeric⟩ := split_of_readMinus first rest
  obtain ⟨split, present, numeric⟩ := split_of_readUnsigned numberRead
  refine ⟨(readMinus first rest).1 ++ number.2.1, ?_, by simp [present], ?_, ?_⟩
  · rw [signSplit, split, List.append_assoc]
  · rw [List.all_append, signNumeric, numeric]
    rfl
  · cases number.1
    · exact Or.inr rfl
    · exact Or.inl rfl

end Numbers

/-! ## Strings -/

section Strings

variable {text characters following : List Char}

theorem suffix_of_readQuoted {pending : Nat}
    (read : readQuoted pending text = .ok (characters, following)) : following <:+ text := by
  induction text generalizing pending characters with
  | nil => cases pending <;> simp [readQuoted] at read
  | cons character rest ih =>
    cases pending with
    | succ pending =>
      rw [readQuoted] at read
      exact (ih read).trans (List.suffix_cons _ _)
    | zero =>
      unfold readQuoted at read
      split at read
      case h_1 => cases read
      case h_2 isSucc _ => cases isSucc
      case h_3 same =>
        cases same
        cases read
        exact List.suffix_cons _ _
      case h_4 same =>
        cases same
        obtain ⟨escape, _, read⟩ := exists_of_bind_eq_ok read
        obtain ⟨tail, tailRead, read⟩ := exists_of_bind_eq_ok read
        cases read
        exact (ih tailRead).trans (List.suffix_cons _ _)
      case h_5 same =>
        cases same
        split at read
        · cases read
        · obtain ⟨tail, tailRead, read⟩ := exists_of_bind_eq_ok read
          cases read
          exact (ih tailRead).trans (List.suffix_cons _ _)

theorem suffix_of_readBlock (read : readBlock text = .ok (characters, following)) :
    following <:+ text := by
  fun_induction readBlock text generalizing characters with
  | case1 rest =>
    cases read
    exact ⟨['"', '"', '"'], rfl⟩
  | case2 rest ih =>
    obtain ⟨tail, tailRead, read⟩ := exists_of_bind_eq_ok read
    cases read
    exact (ih tailRead).trans ⟨['\\', '"', '"', '"'], rfl⟩
  | case3 character rest _ _ ih =>
    obtain ⟨tail, tailRead, read⟩ := exists_of_bind_eq_ok read
    cases read
    exact (ih tailRead).trans (List.suffix_cons _ _)
  | case4 => cases read

theorem suffix_of_readString {lexeme : Lexeme} (read : readString text = .ok (lexeme, following)) :
    following <:+ text ∧ ∃ value, lexeme = .string value ∨ lexeme = .blockString value := by
  unfold readString at read
  split at read
  · obtain ⟨block, blockRead, read⟩ := exists_of_bind_eq_ok read
    cases read
    exact ⟨(suffix_of_readBlock blockRead).trans ⟨['"', '"'], rfl⟩, _, Or.inr rfl⟩
  · obtain ⟨quoted, quotedRead, read⟩ := exists_of_bind_eq_ok read
    cases read
    exact ⟨suffix_of_readQuoted quotedRead, _, Or.inl rfl⟩

end Strings

/-! ## Tokens -/

/-- How a token is written. Of a string nothing is said. -/
def Lexeme.WrittenAs (text : List Char) : Lexeme → Prop
  | .punctuator mark => text = mark.text.toList
  | .name word => text = word.text.toList
  | .int _ => text.all isNumeric
  | .float _ => text.all isNumeric
  | .string _ => True
  | .blockString _ => True

section Lexemes

variable {first : Char} {rest following : List Char} {lexeme : Lexeme}

theorem split_of_readDots (read : readDots rest = .ok (lexeme, following)) :
    rest = '.' :: '.' :: following ∧ lexeme = .punctuator .ellipsis := by
  unfold readDots at read
  split at read
  · cases read
    exact ⟨rfl, rfl⟩
  · cases read
  · split at read <;> cases read
  · cases read

theorem text_of_ofChar?_eq_some {mark : Punctuator} (found : Punctuator.ofChar? first = some mark) :
    mark.text.toList = [first] := by
  unfold Punctuator.ofChar? at found
  split at found <;> cases found <;> rfl

/-- A token is written at the front of the text, with one character at least. -/
theorem split_of_readLexeme (read : readLexeme first rest = .ok (lexeme, following)) :
    ∃ spelled, first :: rest = spelled ++ following ∧ spelled ≠ [] ∧
      lexeme.WrittenAs spelled := by
  unfold readLexeme at read
  split at read
  · rename_i mark found
    cases read
    exact ⟨[first], rfl, by simp, (text_of_ofChar?_eq_some found).symm⟩
  · split at read
    · rename_i starts
      cases read
      refine ⟨first :: rest.takeWhile isNameContinue, by simp, by simp, ?_⟩
      simp [Lexeme.WrittenAs, Name.leading]
    · split at read
      · obtain ⟨spelled, split, present, numeric, isNumber⟩ := split_of_readNumber read
        refine ⟨spelled, split, present, ?_⟩
        rcases isNumber with rfl | rfl <;> exact numeric
      · split at read
        · obtain ⟨⟨inside, split⟩, value, isString⟩ := suffix_of_readString read
          refine ⟨first :: inside, by rw [← split]; rfl, by simp, ?_⟩
          rcases isString with rfl | rfl <;> trivial
        · split at read
          · rename_i dot
            obtain ⟨split, rfl⟩ := split_of_readDots read
            exact ⟨['.', '.', '.'], by rw [dot, split]; rfl, by simp, rfl⟩
          · split at read <;> cases read

/-- What follows a token is not longer than what follows its first character. -/
theorem length_readLexeme_le (read : readLexeme first rest = .ok (lexeme, following)) :
    following.length ≤ rest.length := by
  obtain ⟨spelled, split, present, _⟩ := split_of_readLexeme read
  have lengths := congrArg List.length split
  have positive := List.length_pos_iff.mpr present
  rw [List.length_cons, List.length_append] at lengths
  omega

end Lexemes

namespace TokenStream

/-- Two bounds that are both large enough give the same tokens. -/
theorem ofTextWithin_eq_ofTextWithin {rounds others : Nat} {text : List Char}
    (enough : text.length ≤ rounds) (othersEnough : text.length ≤ others) :
    ofTextWithin rounds text = ofTextWithin others text := by
  induction rounds generalizing others text with
  | zero =>
    have empty : text = [] := List.length_eq_zero_iff.mp (Nat.le_zero.mp enough)
    subst empty
    cases others <;> rfl
  | succ rounds ih =>
    cases others with
    | zero =>
      have empty : text = [] := List.length_eq_zero_iff.mp (Nat.le_zero.mp othersEnough)
      subst empty
      rfl
    | succ others =>
      have skipped := (suffix_skipIgnored false text).length_le
      simp only [ofTextWithin]
      cases start : skipIgnored false text with
      | nil => rfl
      | cons first rest =>
        rw [start, List.length_cons] at skipped
        cases read : readLexeme first rest with
        | error error => simp only [read]
        | ok answer =>
          have shorter := length_readLexeme_le read
          have same : ofTextWithin rounds answer.2 = ofTextWithin others answer.2 :=
            ih (by omega) (by omega)
          simp only [read, same]

/-- The tokens of a text: its first token, and the tokens of what follows it. -/
theorem ofText_eq (text : List Char) :
    ofText text =
      match skipIgnored false text with
      | [] => .finished
      | first :: rest =>
        match readLexeme first rest with
        | .error error => .failed error
        | .ok (lexeme, following) =>
          .token ⟨lexeme, first :: rest, following⟩ (ofText following) := by
  have skipped := (suffix_skipIgnored false text).length_le
  rw [ofText, ofTextWithin_eq_ofTextWithin (Nat.le_refl _) (Nat.le_succ _), ofTextWithin]
  cases start : skipIgnored false text with
  | nil => rfl
  | cons first rest =>
    rw [start, List.length_cons] at skipped
    cases read : readLexeme first rest with
    | error error => simp only [read]
    | ok answer =>
      have shorter := length_readLexeme_le read
      have same : ofTextWithin text.length answer.2 = ofText answer.2 :=
        ofTextWithin_eq_ofTextWithin (by omega) (Nat.le_refl _)
      simp only [read, same]

end TokenStream

end QueryPrep.Graphql
