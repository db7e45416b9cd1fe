import QueryPrep.Graphql.BlockString
import QueryPrep.Graphql.SyntaxError

/-!
# From text to tokens

Blanks, commas, line endings, byte order marks and comments separate tokens and are dropped. The
tokens of a text form a stream that ends either with the text or with the first place that is no
token; a reader of the stream meets that error only when it gets there.
-/

namespace QueryPrep.Graphql

open QueryPrep.Text

/-- A comment ends before a line feed or a carriage return. -/
def isLineEnd (character : Char) : Bool :=
  character == '\n' || character == '\r'

/-- The characters that mean nothing between tokens. -/
def isIgnored (character : Char) : Bool :=
  character == ' ' || character == '\t' || character == ',' || character == '\ufeff' ||
    isLineEnd character

/-- The text from the next token on. The flag tells whether a comment has been opened. -/
def skipIgnored : Bool → List Char → List Char
  | _, [] => []
  | true, character :: rest => skipIgnored (!isLineEnd character) rest
  | false, character :: rest =>
    if isIgnored character then skipIgnored false rest
    else if character = '#' then skipIgnored true rest
    else character :: rest

/-! ## Numbers -/

/-- The run of digits that has to stand here, and the text after it. -/
def readDigits : List Char → Except SyntaxError (List Char × List Char)
  | [] => .error (.missingDigit none)
  | first :: rest =>
    if first.isDigit then
      .ok (first :: rest.takeWhile Char.isDigit, rest.dropWhile Char.isDigit)
    else
      .error (.missingDigit (some first))

/-- The digits before the point; no digit may follow a leading zero. -/
def readWhole : List Char → Except SyntaxError (List Char × List Char)
  | '0' :: next :: rest =>
    if next.isDigit then .error (.digitAfterZero next) else .ok (['0'], next :: rest)
  | text => readDigits text

/-- The point and the digits after it, if there is a point. -/
def readFraction : List Char → Except SyntaxError (List Char × List Char)
  | '.' :: rest => do
    let (digits, following) ← readDigits rest
    return ('.' :: digits, following)
  | text => .ok ([], text)

/-- A sign in front of an exponent, if there is one. -/
def readSign : List Char → List Char × List Char
  | '+' :: rest => (['+'], rest)
  | '-' :: rest => (['-'], rest)
  | text => ([], text)

/-- The exponent, if there is one. -/
def readExponent : List Char → Except SyntaxError (List Char × List Char)
  | [] => .ok ([], [])
  | letter :: rest =>
    if letter = 'e' ∨ letter = 'E' then do
      let signed := readSign rest
      let (digits, following) ← readDigits signed.2
      return (letter :: signed.1 ++ digits, following)
    else
      .ok ([], letter :: rest)

/-- Neither a point nor the start of a name may touch the end of a number. -/
def checkNumberEnd : List Char → Except SyntaxError Unit
  | [] => .ok ()
  | next :: _ =>
    if next = '.' || isNameStart next then .error (.missingDigit (some next)) else .ok ()

/-- A number without its minus sign: whether it is an integer, its text, the text after it. -/
def readUnsigned (text : List Char) : Except SyntaxError (Bool × List Char × List Char) := do
  let (whole, afterWhole) ← readWhole text
  let (fraction, afterFraction) ← readFraction afterWhole
  let (exponent, following) ← readExponent afterFraction
  checkNumberEnd following
  return (fraction.isEmpty && exponent.isEmpty, whole ++ fraction ++ exponent, following)

/-- A minus sign in front of a number, if there is one. -/
def readMinus (first : Char) (rest : List Char) : List Char × List Char :=
  if first = '-' then (['-'], rest) else ([], first :: rest)

/-- A number; its value is the text that it is written with. -/
def readNumber (first : Char) (rest : List Char) : Except SyntaxError (Lexeme × List Char) := do
  let signed := readMinus first rest
  let (integral, digits, following) ← readUnsigned signed.2
  let text := String.ofList (signed.1 ++ digits)
  return (if integral then .int text else .float text, following)

/-! ## Strings -/

/-- The value of a hexadecimal digit. -/
def hexDigitValue? (character : Char) : Option Nat :=
  if character.isDigit then some (character.toNat - '0'.toNat)
  else if 'a' ≤ character ∧ character ≤ 'f' then some (character.toNat - 'a'.toNat + 10)
  else if 'A' ≤ character ∧ character ≤ 'F' then some (character.toNat - 'A'.toNat + 10)
  else none

/-- The character with a given number, unless there is none with it. -/
def scalar? (number : Nat) : Option Char :=
  if number.isValidChar then some (Char.ofNat number) else none

/-- The code unit that the next four hexadecimal digits write. -/
def readUnit? : List Char → Option Nat
  | first :: second :: third :: fourth :: _ => do
    let first ← hexDigitValue? first
    let second ← hexDigitValue? second
    let third ← hexDigitValue? third
    let fourth ← hexDigitValue? fourth
    return first * 4096 + second * 256 + third * 16 + fourth
  | _ => none

/-- The first half of a surrogate pair. -/
def isLeadingSurrogate (unit : Nat) : Bool :=
  0xD800 ≤ unit && unit ≤ 0xDBFF

/-- The second half of a surrogate pair. -/
def isTrailingSurrogate (unit : Nat) : Bool :=
  0xDC00 ≤ unit && unit ≤ 0xDFFF

/-- The second half of a pair, written as an escape of its own. -/
def readTrailing? : List Char → Option Nat
  | '\\' :: 'u' :: digits => do
    let unit ← readUnit? digits
    if isTrailingSurrogate unit then some unit else none
  | _ => none

/-- The longest escape, from its backslash to its closing brace. -/
def escapeLimit : Nat := 12

/-- The part of an escape that an error message repeats. -/
def escapeText (size : Nat) (afterBackslash : List Char) : String :=
  String.ofList ('\\' :: afterBackslash.take (size - 1))

/--
The digits of an escape in braces. `size` counts the characters of the escape so far, its
backslash included. On success the answer is the character and the size of the whole escape, and
otherwise the size up to the character that spoiled it.
-/
def readBracedDigits (size value : Nat) : List Char → Except Nat (Char × Nat)
  | [] => .error size
  | next :: rest =>
    if escapeLimit ≤ size then .error size
    else if next = '\x7d' then
      match scalar? value with
      | some character => if size < 4 then .error (size + 1) else .ok (character, size + 1)
      | none => .error (size + 1)
    else
      match hexDigitValue? next with
      | some digit => readBracedDigits (size + 1) (value * 16 + digit) rest
      | none => .error (size + 1)

/-- An escape of four digits, or of two times four for a surrogate pair. -/
def readFixedEscape? (digits : List Char) : Option (Char × Nat) := do
  let unit ← readUnit? digits
  if isLeadingSurrogate unit then
    let trailing ← readTrailing? (digits.drop 4)
    let character ← scalar? (0x10000 + (unit - 0xD800) * 0x400 + (trailing - 0xDC00))
    return (character, 12)
  else
    let character ← scalar? unit
    return (character, 6)

/--
The character that an escape stands for and the number of characters that the escape takes, its
backslash included. The argument is the text after the backslash.
-/
def readEscape : List Char → Except SyntaxError (Char × Nat)
  | '"' :: _ => .ok ('"', 2)
  | '\\' :: _ => .ok ('\\', 2)
  | '/' :: _ => .ok ('/', 2)
  | 'b' :: _ => .ok ('\x08', 2)
  | 'f' :: _ => .ok ('\x0c', 2)
  | 'n' :: _ => .ok ('\n', 2)
  | 'r' :: _ => .ok ('\r', 2)
  | 't' :: _ => .ok ('\t', 2)
  | 'u' :: '\x7b' :: digits =>
    match readBracedDigits 3 0 digits with
    | .ok escape => .ok escape
    | .error size => .error (.invalidUnicodeEscape (escapeText size ('u' :: '\x7b' :: digits)))
  | 'u' :: digits =>
    match readFixedEscape? digits with
    | some escape => .ok escape
    | none => .error (.invalidUnicodeEscape (escapeText 6 ('u' :: digits)))
  | letter :: _ => .error (.invalidEscape (some letter))
  | [] => .error (.invalidEscape none)

/--
The characters up to the closing quotation mark and the text after it. `pending` counts the
characters that still belong to an escape that has been read.
-/
def readQuoted : Nat → List Char → Except SyntaxError (List Char × List Char)
  | _, [] => .error .unterminatedString
  | pending + 1, _ :: rest => readQuoted pending rest
  | 0, '"' :: rest => .ok ([], rest)
  | 0, '\\' :: rest => do
    let (character, size) ← readEscape rest
    let (characters, following) ← readQuoted (size - 1) rest
    return (character :: characters, following)
  | 0, character :: rest =>
    if isLineEnd character then .error .unterminatedString
    else do
      let (characters, following) ← readQuoted 0 rest
      return (character :: characters, following)

/-- The text up to the closing triple quotation mark, and the text after it. -/
def readBlock : List Char → Except SyntaxError (List Char × List Char)
  | '"' :: '"' :: '"' :: rest => .ok ([], rest)
  | '\\' :: '"' :: '"' :: '"' :: rest => do
    let (characters, following) ← readBlock rest
    return ('"' :: '"' :: '"' :: characters, following)
  | character :: rest => do
    let (characters, following) ← readBlock rest
    return (character :: characters, following)
  | [] => .error .unterminatedString

/-- A string of either style. The argument is the text after the first quotation mark. -/
def readString : List Char → Except SyntaxError (Lexeme × List Char)
  | '"' :: '"' :: rest => do
    let (raw, following) ← readBlock rest
    return (.blockString (BlockString.value raw), following)
  | text => do
    let (characters, following) ← readQuoted 0 text
    return (.string (String.ofList characters), following)

/-! ## Tokens -/

/-- Three dots are a token; one or two of them are not. -/
def readDots : List Char → Except SyntaxError (Lexeme × List Char)
  | '.' :: '.' :: rest => .ok (.punctuator .ellipsis, rest)
  | '.' :: _ => .error .doubleDot
  | next :: rest =>
    if next.isDigit then
      .error (.fractionWithoutWhole (String.ofList (next :: rest.takeWhile Char.isDigit)))
    else
      .error (.unexpectedCharacter '.')
  | [] => .error (.unexpectedCharacter '.')

/-- The token that opens with `first`, and the text after it. -/
def readLexeme (first : Char) (rest : List Char) : Except SyntaxError (Lexeme × List Char) :=
  match Punctuator.ofChar? first with
  | some punctuator => .ok (.punctuator punctuator, rest)
  | none =>
    if starts : isNameStart first = true then
      .ok (.name (Name.leading first rest starts), rest.dropWhile isNameContinue)
    else if first.isDigit || first = '-' then readNumber first rest
    else if first = '"' then readString rest
    else if first = '.' then readDots rest
    else if first = '\'' then .error .singleQuote
    else .error (.unexpectedCharacter first)

/-- The tokens of a text, up to its end or to the first place that is no token. -/
inductive TokenStream
  | finished
  | failed (error : SyntaxError)
  | token (token : Token) (rest : TokenStream)

namespace TokenStream

/-- The number of tokens. -/
def length : TokenStream → Nat
  | .finished => 0
  | .failed _ => 0
  | .token _ rest => rest.length + 1

/-- The tokens themselves. -/
def toList : TokenStream → List Token
  | .finished => []
  | .failed _ => []
  | .token first rest => first :: rest.toList

/--
The text from the first token of a stream to the last one before `rest`, where `rest` is what is
left of the stream after some tokens have been taken.
-/
def sourceBefore (stream rest : TokenStream) : List Char :=
  match stream.toList.take (stream.length - rest.length) with
  | [] => []
  | first :: others =>
    let last := (first :: others).getLastD first
    first.source.take (first.source.length - last.following.length)

/-- At most `rounds` tokens of a text. -/
def ofTextWithin : Nat → List Char → TokenStream
  | 0, _ => .finished
  | rounds + 1, text =>
    match skipIgnored false text with
    | [] => .finished
    | first :: rest =>
      match readLexeme first rest with
      | .error error => .failed error
      | .ok (lexeme, following) =>
        .token ⟨lexeme, first :: rest, following⟩ (ofTextWithin rounds following)

/-- The tokens of a text. Each takes a character at least, so there are no more than those. -/
def ofText (text : List Char) : TokenStream :=
  ofTextWithin text.length text

end TokenStream

end QueryPrep.Graphql
