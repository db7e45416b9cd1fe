import QueryPrep.Graphql.Name

/-!
# Tokens

The words of the query language. A token keeps the text from its first character on and the text
after it, so the source of anything that spans several tokens can be cut out afterwards.
-/

namespace QueryPrep.Graphql

/-- The tokens that are always written the same way. -/
inductive Punctuator
  | bang
  | dollar
  | ampersand
  | parenthesisOpen
  | parenthesisClose
  | ellipsis
  | colon
  | equals
  | atSign
  | bracketOpen
  | bracketClose
  | braceOpen
  | pipe
  | braceClose
deriving DecidableEq

/-- How a punctuator is written. -/
def Punctuator.text : Punctuator → String
  | .bang => "!"
  | .dollar => "$"
  | .ampersand => "&"
  | .parenthesisOpen => "("
  | .parenthesisClose => ")"
  | .ellipsis => "..."
  | .colon => ":"
  | .equals => "="
  | .atSign => "@"
  | .bracketOpen => "["
  | .bracketClose => "]"
  | .braceOpen => "\x7b"
  | .pipe => "|"
  | .braceClose => "\x7d"

/-- The punctuator that a single character is, if it is one. -/
def Punctuator.ofChar? : Char → Option Punctuator
  | '!' => some .bang
  | '$' => some .dollar
  | '&' => some .ampersand
  | '(' => some .parenthesisOpen
  | ')' => some .parenthesisClose
  | ':' => some .colon
  | '=' => some .equals
  | '@' => some .atSign
  | '[' => some .bracketOpen
  | ']' => some .bracketClose
  | '\x7b' => some .braceOpen
  | '|' => some .pipe
  | '\x7d' => some .braceClose
  | _ => none

/-- What a token is. Strings hold the text that they stand for. -/
inductive Lexeme
  | punctuator (punctuator : Punctuator)
  | name (name : Name)
  | int (text : String)
  | float (text : String)
  | string (value : String)
  | blockString (value : String)
deriving DecidableEq

namespace Lexeme

/-- How an error message names a token. -/
def describe : Lexeme → String
  | .punctuator mark => "'" ++ mark.text ++ "'"
  | .name word => "Name '" ++ word.text ++ "'"
  | .int text => "Int '" ++ text ++ "'"
  | .float text => "Float '" ++ text ++ "'"
  | .string value => "String '" ++ value ++ "'"
  | .blockString value => "BlockString '" ++ value ++ "'"

/-- The text that a token carries, whatever its kind; a punctuator carries none. -/
def content? : Lexeme → Option String
  | .punctuator _ => none
  | .name word => some word.text
  | .int text => some text
  | .float text => some text
  | .string value => some value
  | .blockString value => some value

end Lexeme

/-- A token in its place. -/
structure Token where
  lexeme : Lexeme
  /-- The text from the token's first character on. -/
  source : List Char
  /-- The text after the token. -/
  following : List Char

end QueryPrep.Graphql
