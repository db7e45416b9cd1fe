import QueryPrep.Graphql.Token
import QueryPrep.Text.Quoted

/-!
# Syntax errors

Everything that can be wrong with the text of a document, and the message that says so. The first
group arises while tokens are read, the second while they are put together.
-/

namespace QueryPrep.Graphql

/-- What stands where something else was expected; the end of the text is no token. -/
abbrev Found := Option Lexeme

/-- What a document must go on with at some place. -/
inductive Expectation
  | punctuator (punctuator : Punctuator)
  | name
  | keyword (text : String)
deriving DecidableEq

/-- A reason why a text is no document. -/
inductive SyntaxError
  | doubleDot
  | fractionWithoutWhole (digits : String)
  | singleQuote
  | unexpectedCharacter (character : Char)
  | digitAfterZero (character : Char)
  | missingDigit (found : Option Char)
  | unterminatedString
  | invalidEscape (letter : Option Char)
  | invalidUnicodeEscape (escape : String)
  | expected (expectation : Expectation) (found : Found)
  | unexpected (found : Found)
  | describedShorthand
  | describedNonDefinition
  | constantVariable (name : Name)
  | reservedEnumValue (lexeme : Lexeme)
  | nestedTooDeeply
deriving DecidableEq

/-- How a message names what stands at a place. -/
def Found.describe : Found → String
  | some lexeme => lexeme.describe
  | none => "<EOF>"

/-- How a message names what was expected. -/
def Expectation.describe : Expectation → String
  | .punctuator mark => "'" ++ mark.text ++ "'"
  | .name => "Name"
  | .keyword text => "'" ++ text ++ "'"

namespace SyntaxError

/-- The number of a character in upper-case hexadecimal digits, at least four of them. -/
def codePointDigits (character : Char) : String :=
  let digits := (Nat.toDigits 16 character.toNat).map Char.toUpper
  String.ofList (List.replicate (4 - digits.length) '0' ++ digits)

/-- A printable ASCII character stands for itself; any other is named by its number. -/
def describeCharacter (character : Char) : String :=
  if ' ' ≤ character ∧ character ≤ '~' then "'" ++ character.toString ++ "'"
  else "U+" ++ codePointDigits character

/-- Like `describeCharacter`, at a place where the text may have ended. -/
def describePlace : Option Char → String
  | some character => describeCharacter character
  | none => "<EOF>"

/-- What is wrong, without the words that open every message. -/
def detail : SyntaxError → String
  | .doubleDot => "Unexpected '..', did you mean '...'?"
  | .fractionWithoutWhole digits =>
    "Invalid number, expected digit before '.', did you mean '0." ++ digits ++ "'?"
  | .singleQuote =>
    "Unexpected single quote character ('), did you mean to use a double quote (\")?"
  | .unexpectedCharacter character =>
    "Unexpected character: " ++ describeCharacter character ++ "."
  | .digitAfterZero character =>
    "Invalid number, unexpected digit after 0: " ++ describeCharacter character ++ "."
  | .missingDigit found =>
    "Invalid number, expected digit but got: " ++ describePlace found ++ "."
  | .unterminatedString => "Unterminated string."
  | .invalidEscape letter =>
    "Invalid character escape sequence: '\\" ++ (letter.map Char.toString).getD "" ++ "'."
  | .invalidUnicodeEscape escape => "Invalid Unicode escape sequence: '" ++ escape ++ "'."
  | .expected expectation found =>
    "Expected " ++ expectation.describe ++ ", found " ++ found.describe ++ "."
  | .unexpected found => "Unexpected " ++ found.describe ++ "."
  | .describedShorthand =>
    "Unexpected description, descriptions are not supported on shorthand queries."
  | .describedNonDefinition =>
    "Unexpected description, only GraphQL definitions support descriptions."
  | .constantVariable name => "Unexpected variable '$" ++ name.text ++ "' in constant value."
  | .reservedEnumValue lexeme =>
    lexeme.describe ++ " is reserved and cannot be used for an enum value."
  | .nestedTooDeeply => "Document is nested too deeply. Parsing aborted."

/-- The message of a syntax error. -/
def message (error : SyntaxError) : String :=
  "Syntax Error: " ++ error.detail

end SyntaxError

end QueryPrep.Graphql
