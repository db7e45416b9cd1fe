import QueryPrep.Graphql.Lexer.Progress
import Mathlib.Data.List.TakeWhile

/-!
# The text between tokens

A token is written at the front of its source, and what is ignored before the next token makes up
its margin. So the text of a document is the texts of its tokens with their margins, and a stretch
of tokens can be put back into the text that it was read from.
-/

namespace QueryPrep.Graphql

namespace Token

def text (token : Token) : List Char :=
  token.source.take (token.source.length - token.following.length)

/-- What is ignored between the token and the next one. -/
def margin (token : Token) : List Char :=
  token.following.take (token.following.length - (skipIgnored false token.following).length)

/-- The token stands in its source as it was read: written out, and as long as it can be. -/
structure IsRead (token : Token) : Prop where
  source_eq : token.source = token.text ++ token.following
  written : token.lexeme.WrittenAs token.text
  maximal : ∀ name, token.lexeme = .name name →
    ∀ character ∈ token.following.head?, isNameContinue character = false

theorem following_eq (token : Token) :
    token.following = token.margin ++ skipIgnored false token.following := by
  rcases suffix_skipIgnored false token.following with ⟨ignored, split⟩
  have length := congrArg List.length split
  rw [List.length_append] at length
  have margin : token.margin = ignored := by
    rw [Token.margin, ← length, Nat.add_sub_cancel]
    exact (congrArg (List.take ignored.length) split.symm).trans List.take_left
  rw [margin, split]

section Text

variable {token : Token}

theorem text_of_punctuator {mark : Punctuator} (read : token.IsRead)
    (isMark : token.lexeme = .punctuator mark) : token.text = mark.text.toList := by
  have written := read.written
  rwa [isMark] at written

theorem text_of_name {name : Name} (read : token.IsRead)
    (isName : token.lexeme = .name name) : token.text = name.text.toList := by
  have written := read.written
  rwa [isName] at written

end Text

end Token

section Reading

variable {first : Char} {rest following : List Char} {lexeme : Lexeme}

theorem maximal_of_readLexeme {name : Name}
    (read : readLexeme first rest = .ok (.name name, following)) :
    ∀ character ∈ following.head?, isNameContinue character = false := by
  unfold readLexeme at read
  split at read
  · cases read
  · split at read
    · cases read
      intro character next
      have stopped := List.head?_dropWhile_not isNameContinue rest
      rw [Option.mem_def.mp next] at stopped
      simpa using stopped
    · -- Every other token is written with characters that open no name.
      split at read
      · rcases split_of_readNumber read with ⟨_, _, _, _, isNumber⟩
        simp at isNumber
      · split at read
        · rcases suffix_of_readString read with ⟨_, _, isString⟩
          simp at isString
        · split at read
          · cases (split_of_readDots read).2
          · split at read <;> cases read

theorem isRead_of_readLexeme (read : readLexeme first rest = .ok (lexeme, following)) :
    (⟨lexeme, first :: rest, following⟩ : Token).IsRead := by
  rcases split_of_readLexeme read with ⟨spelled, split, _, written⟩
  have text : (⟨lexeme, first :: rest, following⟩ : Token).text = spelled := by
    simp [Token.text, split]
  exact ⟨by rw [text, split], by rwa [text], by rintro name rfl; exact maximal_of_readLexeme read⟩

end Reading

/-- Reading the tokens off the text leaves the rest. -/
inductive Lexes : List Char → List Token → List Char → Prop
  | nil {text : List Char} : Lexes text [] text
  | cons {text rest : List Char} {token : Token} {tokens : List Token}
      (starts : skipIgnored false text = token.source) (read : token.IsRead)
      (later : Lexes token.following tokens rest) : Lexes text (token :: tokens) rest

def spellEach (tokens : List Token) : List Char :=
  tokens.flatMap fun token => token.text ++ token.margin

theorem spellEach_cons (token : Token) (tokens : List Token) :
    spellEach (token :: tokens) = token.text ++ token.margin ++ spellEach tokens := rfl

theorem spellEach_append (first second : List Token) :
    spellEach (first ++ second) = spellEach first ++ spellEach second := by
  simp [spellEach]

namespace TokenStream

def prepend (tokens : List Token) (stream : TokenStream) : TokenStream :=
  tokens.foldr .token stream

@[simp]
theorem prepend_nil (stream : TokenStream) : prepend [] stream = stream := rfl

@[simp]
theorem prepend_cons (token : Token) (tokens : List Token) (stream : TokenStream) :
    prepend (token :: tokens) stream = .token token (prepend tokens stream) := rfl

@[simp]
theorem prepend_append (tokens more : List Token) (stream : TokenStream) :
    prepend (tokens ++ more) stream = prepend tokens (prepend more stream) := by
  simp [prepend]

@[simp]
theorem toList_prepend (tokens : List Token) (stream : TokenStream) :
    (prepend tokens stream).toList = tokens ++ stream.toList := by
  induction tokens with
  | nil => rfl
  | cons token tokens ih => simp [toList, ih]

@[simp]
theorem length_prepend (tokens : List Token) (stream : TokenStream) :
    (prepend tokens stream).length = tokens.length + stream.length := by
  induction tokens with
  | nil => simp
  | cons token tokens ih =>
      rw [prepend_cons, length, ih, List.length_cons]
      omega

theorem ofText_eq_token {text : List Char} {token : Token} {rest : TokenStream}
    (stream : ofText text = .token token rest) :
    skipIgnored false text = token.source ∧ token.IsRead ∧ rest = ofText token.following := by
  rw [ofText_eq] at stream
  split at stream
  · cases stream
  · rename_i first others skipped
    cases read : readLexeme first others with
    | error error => simp [read] at stream
    | ok answer =>
        simp only [read, TokenStream.token.injEq] at stream
        rcases stream with ⟨rfl, rfl⟩
        exact ⟨skipped, isRead_of_readLexeme read, rfl⟩

/-- Tokens that were taken from the stream of a text have been read off it. -/
theorem exists_lexes {text : List Char} {tokens : List Token} {after : TokenStream}
    (stream : ofText text = prepend tokens after) :
    ∃ rest, Lexes text tokens rest ∧ after = ofText rest := by
  induction tokens generalizing text with
  | nil => exact ⟨text, .nil, stream.symm⟩
  | cons token tokens ih =>
      rcases ofText_eq_token stream with ⟨starts, read, later⟩
      rcases ih later.symm with ⟨rest, lexes, remaining⟩
      exact ⟨rest, .cons starts read lexes, remaining⟩

end TokenStream

namespace Lexes

variable {text rest middle : List Char} {tokens more : List Token} {token last : Token}

theorem append_iff :
    Lexes text (tokens ++ more) rest ↔
      ∃ middle, Lexes text tokens middle ∧ Lexes middle more rest := by
  induction tokens generalizing text with
  | nil =>
      constructor
      · intro lexes
        exact ⟨text, .nil, lexes⟩
      · rintro ⟨middle, none, lexes⟩
        cases none
        exact lexes
  | cons token tokens ih =>
      constructor
      · intro lexes
        cases lexes with
        | cons starts read later =>
            rcases ih.mp later with ⟨middle, before, after⟩
            exact ⟨middle, .cons starts read before, after⟩
      · rintro ⟨middle, before, after⟩
        cases before with
        | cons starts read later => exact .cons starts read (ih.mpr ⟨middle, later, after⟩)

theorem isRead_of_mem (lexes : Lexes text tokens rest) (member : token ∈ tokens) :
    token.IsRead := by
  induction lexes with
  | nil => simp at member
  | cons starts read later ih =>
      rcases List.mem_cons.mp member with rfl | inRest
      · exact read
      · exact ih inRest

/-- The tokens with their margins make up the text that they were read off. -/
theorem skipIgnored_eq (lexes : Lexes text (tokens ++ [last]) rest) :
    skipIgnored false text = spellEach tokens ++ (last.text ++ rest) := by
  induction tokens generalizing text with
  | nil =>
      cases lexes with
      | cons starts read later =>
          cases later
          rw [starts, read.source_eq]
          rfl
  | cons token tokens ih =>
      cases lexes with
      | cons starts read later =>
          rw [starts, read.source_eq, token.following_eq, ih later]
          simp [spellEach]

theorem suffix (lexes : Lexes text tokens rest) : rest <:+ text := by
  induction lexes with
  | nil => exact List.suffix_rfl
  | @cons text rest token tokens starts read later ih =>
      have following : token.following <:+ token.source := by
        rw [read.source_eq]
        exact List.suffix_append _ _
      rw [← starts] at following
      exact (ih.trans following).trans (suffix_skipIgnored false text)

theorem following_last (lexes : Lexes text (tokens ++ [last]) rest) : last.following = rest := by
  rcases append_iff.mp lexes with ⟨middle, _, final⟩
  cases final with
  | cons starts read later =>
      cases later
      rfl

/-- The source of a stretch of tokens, which is cut out of the text, is what they are written as. -/
theorem sourceBefore_prepend {after : TokenStream} (lexes : Lexes text (tokens ++ [last]) rest) :
    (TokenStream.prepend (tokens ++ [last]) after).sourceBefore after =
      spellEach tokens ++ last.text := by
  have cut : (skipIgnored false text).take ((skipIgnored false text).length - rest.length) =
      spellEach tokens ++ last.text := by
    rw [lexes.skipIgnored_eq, ← List.append_assoc, List.length_append, Nat.add_sub_cancel,
      List.take_left]
  have behind := lexes.following_last
  rw [TokenStream.sourceBefore, TokenStream.toList_prepend, TokenStream.length_prepend,
    Nat.add_sub_cancel, List.take_left]
  cases tokens with
  | nil =>
      cases lexes with
      | cons starts read later =>
          change last.source.take (last.source.length - last.following.length) = _
          rw [← starts, behind]
          exact cut
  | cons first others =>
      have lastOne : (first :: others ++ [last]).getLastD first = last := by
        rw [List.getLastD_eq_getLast?, List.getLast?_append]
        rfl
      cases lexes with
      | cons starts read later =>
          change first.source.take (first.source.length -
            ((first :: others ++ [last]).getLastD first).following.length) = _
          rw [lastOne, ← starts, behind]
          exact cut

end Lexes

end QueryPrep.Graphql
