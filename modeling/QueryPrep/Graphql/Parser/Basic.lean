import QueryPrep.Graphql.Lexer
import QueryPrep.Graphql.Syntax

/-!
# Reading tokens

A parser takes tokens from the front of a stream and either answers with what they stand for or
fails with the first thing that is wrong. Its current token is always known: taking a token reads
the one after it, and an error of that one is met right there.
-/

namespace QueryPrep.Graphql

/-- A reader of tokens. -/
abbrev Parser := StateT TokenStream (Except SyntaxError)

namespace Parser

variable {α : Type}

/-- A stream whose first token has been read; it fails if that place is no token. -/
def arrive : TokenStream → Except SyntaxError TokenStream
  | .failed error => .error error
  | stream => .ok stream

/-- The current token; at the end of the text there is none. -/
def current : Parser (Option Token) := do
  match ← get with
  | .token token _ => return some token
  | _ => return none

/-- What the current token is. -/
def peek : Parser Found := do
  return (← current).map Token.lexeme

/-- What the token after the current one is. -/
def peekNext : Parser Found := do
  match ← get with
  | .token _ rest =>
    match ← arrive rest with
    | .token token _ => return some token.lexeme
    | _ => return none
  | _ => return none

/-- Go on to the next token. -/
def advance : Parser Unit := do
  match ← get with
  | .token _ rest => set (← arrive rest)
  | _ => return ()

/-- Fail because of the current token. -/
def unexpected : Parser α := do
  throw (.unexpected (← peek))

/-- Is the current token this punctuator? -/
def atPunctuator (punctuator : Punctuator) : Parser Bool := do
  return (← peek) == some (.punctuator punctuator)

/-- Take the punctuator if it is there, and tell whether it was. -/
def skipPunctuator (punctuator : Punctuator) : Parser Bool := do
  if ← atPunctuator punctuator then
    advance
    return true
  else
    return false

/-- Take the punctuator, which has to be there. -/
def expectPunctuator (punctuator : Punctuator) : Parser Unit := do
  unless ← skipPunctuator punctuator do
    throw (.expected (.punctuator punctuator) (← peek))

/-- The name that the current token is, if it is one. -/
def peekName : Parser (Option Name) := do
  match ← peek with
  | some (.name name) => return some name
  | _ => return none

/-- Take the name that has to stand here. -/
def expectName : Parser Name := do
  match ← peek with
  | some (.name name) =>
    advance
    return name
  | found => throw (.expected .name found)

/-- Is the current token this word? -/
def atKeyword (keyword : String) : Parser Bool := do
  return (← peekName).any (·.text == keyword)

/-- Take the word if it is there, and tell whether it was. -/
def skipKeyword (keyword : String) : Parser Bool := do
  if ← atKeyword keyword then
    advance
    return true
  else
    return false

/-- Take the word, which has to be there. -/
def expectKeyword (keyword : String) : Parser Unit := do
  unless ← skipKeyword keyword do
    throw (.expected (.keyword keyword) (← peek))

/-- The string literal that stands here, if one does. -/
def literal? : Parser (Option StringLiteral) := do
  match ← peek with
  | some (.string value) =>
    advance
    return some ⟨value, .quoted⟩
  | some (.blockString value) =>
    advance
    return some ⟨value, .block⟩
  | _ => return none

/-! ## Sequences

An item takes a token at least, so there are no more items than tokens left. One more attempt is
allowed for: it meets the end of the text, and says what is missing there.
-/

/-- At most `rounds` items, the last one followed by `closing`, which is taken too. -/
def itemsWithin (closing : Punctuator) (item : Parser α) : Nat → Parser (List α)
  | 0 => unexpected
  | rounds + 1 => do
    let first ← item
    if ← skipPunctuator closing then
      return [first]
    else
      return first :: (← itemsWithin closing item rounds)

/-- One or more items up to `closing`, which is taken too. -/
def itemsUntil (closing : Punctuator) (item : Parser α) : Parser (List α) := do
  itemsWithin closing item ((← get).length + 1)

/-- Any number of items between two punctuators. -/
def between (opening closing : Punctuator) (item : Parser α) : Parser (List α) := do
  expectPunctuator opening
  if ← skipPunctuator closing then
    return []
  else
    itemsUntil closing item

/-- One or more items between two punctuators. -/
def someBetween (opening closing : Punctuator) (item : Parser α) : Parser (List α) := do
  expectPunctuator opening
  itemsUntil closing item

/-- Nothing at all, or one or more items between two punctuators. -/
def optionalBetween (opening closing : Punctuator) (item : Parser α) : Parser (List α) := do
  if ← skipPunctuator opening then
    itemsUntil closing item
  else
    return []

/-- At most `rounds` items with a separator between them. -/
def separatedWithin (separator : Punctuator) (item : Parser α) : Nat → Parser (List α)
  | 0 => unexpected
  | rounds + 1 => do
    let first ← item
    if ← skipPunctuator separator then
      return first :: (← separatedWithin separator item rounds)
    else
      return [first]

/-- One or more items with a separator between them; one more may stand before the first. -/
def separatedBy (separator : Punctuator) (item : Parser α) : Parser (List α) := do
  let _ ← skipPunctuator separator
  separatedWithin separator item ((← get).length + 1)

/-- At most `rounds` items, as long as each starts with the given punctuator. -/
def whileWithin (opening : Punctuator) (item : Parser α) : Nat → Parser (List α)
  | 0 => return []
  | rounds + 1 => do
    if ← atPunctuator opening then
      let first ← item
      return first :: (← whileWithin opening item rounds)
    else
      return []

/-- The items that start with the given punctuator, as many as there are. -/
def whileAt (opening : Punctuator) (item : Parser α) : Parser (List α) := do
  whileWithin opening item (← get).length

end Parser

end QueryPrep.Graphql
