import QueryPrep.Merge.Canonical
import QueryPrep.Text.Quoted

/-!
# Argument keys

Two lists of arguments ask for the same thing when each name has the same canonical values in
both. The key of a list is a text that says just this: a JSON array of the arguments, sorted by
name, without any blanks and in ASCII characters only.

A variable is written as an object whose only field starts with a dollar sign. No name does, so
no object value is written the same way.
-/

namespace QueryPrep.Graphql

open QueryPrep.Text

/-- Keys are ASCII text; everything else is escaped with lower-case digits. -/
def keyStyle : QuoteStyle where
  numeric character := character.toNat < 0x20 || 0x7F ≤ character.toNat
  digit := lowerHexDigit

namespace CanonicalValue

/-- A name or a text between quotation marks. -/
def writeText (text : String) : List Char :=
  keyStyle.quoteChars text.toList

/-- A field of an object. -/
def writeField (name : String) (value : List Char) : List Char :=
  writeText name ++ ':' :: value

/-- Items in brackets, with commas between them. -/
def writeList (items : List (List Char)) : List Char :=
  '[' :: [','].intercalate items ++ [']']

/-- Fields in braces, with commas between them. -/
def writeObject (fields : List (List Char)) : List Char :=
  '\x7b' :: [','].intercalate fields ++ ['\x7d']

mutual

/-- A canonical value as it stands in a key. -/
def write : CanonicalValue → List Char
  | .null => ['n', 'u', 'l', 'l']
  | .boolean true => ['t', 'r', 'u', 'e']
  | .boolean false => ['f', 'a', 'l', 's', 'e']
  | .text value => writeText value
  | .variable name => writeObject [writeField "$variable" (writeText name.text)]
  | .list values => writeList (writeEach values)
  | .object fields => writeObject (writeFields fields)

/-- Every value of a list. -/
def writeEach : List CanonicalValue → List (List Char)
  | [] => []
  | value :: rest => value.write :: writeEach rest

/-- Every field of an object. -/
def writeFields : List (Name × CanonicalValue) → List (List Char)
  | [] => []
  | (name, value) :: rest => writeField name.text value.write :: writeFields rest

end

end CanonicalValue

/-- An argument as it stands in a key. -/
def Argument.write (argument : Argument) : List Char :=
  CanonicalValue.writeObject
    [CanonicalValue.writeField "name" (CanonicalValue.writeText argument.name.text),
      CanonicalValue.writeField "value" argument.value.canonical.write]

/-- Arguments sorted by name; those of one name keep their order. -/
def sortArguments (arguments : List Argument) : List Argument :=
  arguments.mergeSort fun first second => decide (first.name.text ≤ second.name.text)

/-- The key of a list of arguments; no arguments have the empty key. -/
def argumentKey (arguments : List Argument) : String :=
  if arguments.isEmpty then ""
  else String.ofList (CanonicalValue.writeList ((sortArguments arguments).map Argument.write))

end QueryPrep.Graphql
