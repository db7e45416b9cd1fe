import QueryPrep.Proofs.Graphql.Braces
import QueryPrep.Proofs.Source.Standalone

/-!
# Matched braces

A scanner counts every brace of a text, a parser only those that are tokens. The two counts agree
on a stretch of tokens if the other braces, those in strings and between the tokens, match among
themselves. This file brings the one notion of balance to the other.
-/

namespace QueryPrep.Source

open QueryPrep.Graphql

/-- How many braces are open behind a text, unless a closing brace in it has no partner. -/
def openBraces? : Nat → List Char → Option Nat
  | depth, [] => some depth
  | depth, '\x7b' :: rest => openBraces? (depth + 1) rest
  | 0, '\x7d' :: _ => none
  | depth + 1, '\x7d' :: rest => openBraces? depth rest
  | depth, _ :: rest => openBraces? depth rest

def Matched (text : List Char) : Prop :=
  openBraces? 0 text = some 0
deriving Decidable

section Texts

variable {text first second : List Char} {depth left : Nat}

theorem openBraces?_cons_of_ne {character : Char} (rest : List Char)
    (notOpening : character ≠ '\x7b') (notClosing : character ≠ '\x7d') :
    openBraces? depth (character :: rest) = openBraces? depth rest := by
  rw [openBraces?.eq_def]
  split <;> simp_all

theorem ne_of_notClosing {character : Char} (notFirst : depth = 0 → character ≠ '\x7d')
    (notClosing : ∀ before : Nat, depth = before.succ → character ≠ '\x7d') :
    character ≠ '\x7d' := by
  cases depth with
  | zero => exact notFirst rfl
  | succ before => exact notClosing before rfl

theorem openBraces?_append (depth : Nat) (first second : List Char) :
    openBraces? depth (first ++ second) =
      (openBraces? depth first).bind fun left => openBraces? left second := by
  fun_induction openBraces? depth first with
  | case1 => rfl
  | case2 depth rest ih => rw [List.cons_append, openBraces?, ih]
  | case3 => rfl
  | case4 depth rest ih => rw [List.cons_append, openBraces?, ih]
  | case5 depth character rest notOpening notFirst notClosing ih =>
      rw [List.cons_append, openBraces?_cons_of_ne _ notOpening
        (ne_of_notClosing notFirst notClosing), ih]

/-- Braces that are open all along make no difference. -/
theorem openBraces?_add (opened : openBraces? depth text = some left) (more : Nat) :
    openBraces? (depth + more) text = some (left + more) := by
  fun_induction openBraces? depth text with
  | case1 depth =>
      rw [Option.some.injEq] at opened
      rw [opened, openBraces?]
  | case2 depth rest ih =>
      rw [openBraces?, Nat.add_right_comm]
      exact ih opened
  | case3 => simp at opened
  | case4 depth rest ih =>
      rw [Nat.succ_add, openBraces?]
      exact ih opened
  | case5 depth character rest notOpening notFirst notClosing ih =>
      rw [openBraces?_cons_of_ne _ notOpening (ne_of_notClosing notFirst notClosing)]
      exact ih opened

theorem openBraces?_of_forall (depth : Nat)
    (braceless : ∀ character ∈ text, character ≠ '\x7b' ∧ character ≠ '\x7d') :
    openBraces? depth text = some depth := by
  induction text with
  | nil => rfl
  | cons character rest ih =>
      rw [List.forall_mem_cons] at braceless
      rw [openBraces?_cons_of_ne rest braceless.1.1 braceless.1.2]
      exact ih braceless.2

/-- The scanner does not close a body within a text that leaves enough braces open. -/
theorem closingOffset?_append_of_openBraces? (opened : openBraces? depth text = some left)
    (rest : List Char) :
    Scanner.closingOffset? (depth + 1) (text ++ rest) =
      (Scanner.closingOffset? (left + 1) rest).map (· + text.length) := by
  fun_induction openBraces? depth text with
  | case1 depth =>
      rw [Option.some.injEq] at opened
      simp [opened]
  | case2 depth inner ih =>
      have deeper : (depth : Int) + 1 + Scanner.depthChange '\x7b' = (depth + 1 : Nat) + 1 := by
        simp [Scanner.depthChange]
      rw [List.cons_append, Scanner.closingOffset?_cons, if_neg (by simp), deeper, ih opened]
      simp [Option.map_map, Function.comp_def, Nat.add_assoc]
  | case3 => simp at opened
  | case4 depth inner ih =>
      have notLast : ¬ ('\x7d' = '\x7d' ∧ (depth.succ : Int) + 1 = 1) := by omega
      have higher : (depth.succ : Int) + 1 + Scanner.depthChange '\x7d' = depth + 1 := by
        have change : Scanner.depthChange '\x7d' = -1 := rfl
        omega
      rw [List.cons_append, Scanner.closingOffset?_cons, if_neg notLast, higher, ih opened]
      simp [Option.map_map, Function.comp_def, Nat.add_assoc]
  | case5 depth character inner notOpening notFirst notClosing ih =>
      have differs := ne_of_notClosing notFirst notClosing
      have same : (depth : Int) + 1 + Scanner.depthChange character = depth + 1 := by
        simp [Scanner.depthChange, differs, show character ≠ '\x7b' from notOpening]
      rw [List.cons_append, Scanner.closingOffset?_cons, if_neg (by simp [differs]), same,
        ih opened]
      simp [Option.map_map, Function.comp_def, Nat.add_assoc]

/-- Behind matched braces the next closing brace closes the body. -/
theorem Matched.closingOffset?_eq (matched : Matched text) :
    Scanner.closingOffset? 0 ('\x7b' :: (text ++ ['\x7d'])) = some (text ++ ['\x7d']).length := by
  have closes := closingOffset?_append_of_openBraces? matched ['\x7d']
  have last : Scanner.closingOffset? 1 ['\x7d'] = some 0 := rfl
  rw [Scanner.closingOffset?_cons, if_neg (by simp)]
  change (Scanner.closingOffset? ((0 : Nat) + 1) (text ++ ['\x7d'])).map (· + 1) = _
  rw [closes]
  simp [last]

end Texts

section Tokens

def isString : Lexeme → Bool
  | .string _ => true
  | .blockString _ => true
  | _ => false

theorem ne_brace_of_accepts {accepts : Char → Bool} {character : Char}
    (opening : accepts '\x7b' = false) (closing : accepts '\x7d' = false)
    (accepted : accepts character = true) : character ≠ '\x7b' ∧ character ≠ '\x7d' := by
  constructor
  · rintro rfl
    simp [opening] at accepted
  · rintro rfl
    simp [closing] at accepted

theorem ne_brace_of_mem_text {mark : Punctuator}
    (noBrace : (Lexeme.punctuator mark).isBrace = false) :
    ∀ character ∈ mark.text.toList, character ≠ '\x7b' ∧ character ≠ '\x7d' := by
  have braceless :
      mark.text.toList.all (fun letter => letter != '\x7b' && letter != '\x7d') = true := by
    cases mark with
    | braceOpen => cases noBrace
    | braceClose => cases noBrace
    | _ => rfl
  simpa using List.all_eq_true.mp braceless

/-- A token that is neither a brace nor a string is written without braces. -/
theorem braceless_text {token : Token} (read : token.IsRead)
    (noBrace : token.lexeme.isBrace = false) (noString : isString token.lexeme = false) :
    ∀ character ∈ token.text, character ≠ '\x7b' ∧ character ≠ '\x7d' := by
  have written := read.written
  cases kind : token.lexeme with
  | punctuator mark =>
      rw [kind] at noBrace
      rw [Token.text_of_punctuator read kind]
      exact ne_brace_of_mem_text noBrace
  | name word =>
      rw [Token.text_of_name read kind]
      intro character member
      exact ne_brace_of_accepts (by decide) (by decide) (word.isNameContinue_of_mem member)
  | int digits =>
      rw [kind] at written
      intro character member
      exact ne_brace_of_accepts (by decide) (by decide)
        (List.all_eq_true.mp written character member)
  | float digits =>
      rw [kind] at written
      intro character member
      exact ne_brace_of_accepts (by decide) (by decide)
        (List.all_eq_true.mp written character member)
  | string value => simp [kind, isString] at noString
  | blockString value => simp [kind, isString] at noString

/-- Where the parser sees no braces: the text of a string, and what comes before the next token. -/
def foreign (token : Token) : List Char :=
  (if isString token.lexeme then token.text else []) ++ token.margin

theorem foreign_of_punctuator {token : Token} {mark : Punctuator}
    (isMark : token.lexeme = .punctuator mark) : foreign token = token.margin := by
  simp [foreign, isMark, isString]

/-- What is open behind balanced tokens is what the foreign braces between them leave open. -/
theorem openBraces?_spellEach {tokens : List Token} (balanced : Balanced tokens)
    (read : ∀ token ∈ tokens, token.IsRead) {depth left : Nat} (more : Nat)
    (opened : openBraces? depth (tokens.flatMap foreign) = some left) :
    openBraces? (depth + more) (spellEach tokens) = some (left + more) := by
  induction balanced generalizing depth left more with
  | nil => exact openBraces?_add opened more
  | @plain token rest noBrace later ih =>
      rw [List.forall_mem_cons] at read
      rw [List.flatMap_cons, openBraces?_append, Option.bind_eq_some_iff] at opened
      rcases opened with ⟨between, here, behind⟩
      have spelt : openBraces? depth (token.text ++ token.margin) = some between := by
        cases quoted : isString token.lexeme with
        | true => simpa [foreign, quoted] using here
        | false =>
            have braceless := braceless_text read.1 noBrace quoted
            rw [openBraces?_append, openBraces?_of_forall depth braceless]
            simpa [foreign, quoted] using here
      rw [spellEach_cons, openBraces?_append, openBraces?_add spelt more]
      exact ih read.2 more behind
  | @braces opening closing inner rest opens closes within later innerIh ih =>
      simp only [List.forall_mem_cons, List.forall_mem_append] at read
      rw [List.flatMap_cons, List.flatMap_append, List.flatMap_cons, foreign_of_punctuator opens,
        foreign_of_punctuator closes] at opened
      simp only [openBraces?_append, Option.bind_eq_some_iff] at opened
      rcases opened with ⟨entered, beforeInner, inside, ofInner, left', beforeRest, ofRest⟩
      -- One more brace is open all along between the two.
      have first := openBraces?_add beforeInner (more + 1)
      have second := innerIh read.2.1 (more + 1) ofInner
      have third := openBraces?_add beforeRest more
      have fourth := ih read.2.2.2 more ofRest
      rw [spellEach_cons, spellEach_append, spellEach_cons, Token.text_of_punctuator read.1 opens,
        Token.text_of_punctuator read.2.2.1 closes]
      change openBraces? (depth + more + 1)
        (opening.margin ++ (spellEach inner ++ ('\x7d' :: (closing.margin ++ spellEach rest)))) = _
      rw [openBraces?_append, Nat.add_assoc, first, Option.bind_some, openBraces?_append, second,
        Option.bind_some, ← Nat.add_assoc, openBraces?, openBraces?_append, third]
      exact fourth

end Tokens

end QueryPrep.Source
