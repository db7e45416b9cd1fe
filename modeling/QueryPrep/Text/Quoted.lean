/-!
# Quoted text

Text between double quotation marks. A quotation mark, a backslash and five control characters
have a short escape; which further characters are written as numeric escapes, and with which
digits, is up to the style of the format. A numeric escape stands for one UTF-16 code unit, so a
character beyond the basic plane takes two of them.
-/

namespace QueryPrep.Text

/-- How a format writes the characters that have no short escape. -/
structure QuoteStyle where
  /-- The characters that are written as numeric escapes. -/
  numeric : Char → Bool
  /-- The character of a hexadecimal digit. -/
  digit : Nat → Char

/-- Lower-case hexadecimal digits. -/
def lowerHexDigit (value : Nat) : Char :=
  Nat.digitChar value

/-- Upper-case hexadecimal digits. -/
def upperHexDigit (value : Nat) : Char :=
  (Nat.digitChar value).toUpper

/-- The UTF-16 code units of a character: one in the basic plane, a surrogate pair beyond it. -/
def utf16Units (character : Char) : List Nat :=
  if character.toNat < 0x10000 then
    [character.toNat]
  else
    let offset := character.toNat - 0x10000
    [0xD800 + offset / 0x400, 0xDC00 + offset % 0x400]

/-- The letter of the short escape of a character, if it has one. -/
def shortEscape? : Char → Option Char
  | '"' => some '"'
  | '\\' => some '\\'
  | '\x08' => some 'b'
  | '\t' => some 't'
  | '\n' => some 'n'
  | '\x0c' => some 'f'
  | '\r' => some 'r'
  | _ => none

namespace QuoteStyle

/-- The numeric escape of one code unit, always with four digits. -/
def unitEscape (style : QuoteStyle) (unit : Nat) : List Char :=
  '\\' :: 'u' :: [unit / 4096 % 16, unit / 256 % 16, unit / 16 % 16, unit % 16].map style.digit

/-- A character as it stands between the quotation marks. -/
def escape (style : QuoteStyle) (character : Char) : List Char :=
  match shortEscape? character with
  | some letter => ['\\', letter]
  | none =>
    if style.numeric character then
      (utf16Units character).flatMap style.unitEscape
    else
      [character]

/-- The characters of the quoted form of a text. -/
def quoteChars (style : QuoteStyle) (text : List Char) : List Char :=
  '"' :: text.flatMap style.escape ++ ['"']

/-- The quoted form of a text. -/
def quote (style : QuoteStyle) (text : String) : String :=
  String.ofList (style.quoteChars text.toList)

end QuoteStyle

end QueryPrep.Text
