/-!
# Shell words

A command line is a text; the words of the command are found by the quoting rules of the shell.
Blanks separate words. A backslash takes the next character as it is, single quotation marks take
everything between them, and between double ones a backslash only escapes itself and the mark.

The other way round, a word is quoted only if it has to be.
-/

namespace QueryPrep.Text

/-- A reason why a text is no command line. -/
inductive ShellError
  | unclosedQuotation
  | danglingEscape
deriving DecidableEq

/-- The message of an error. -/
def ShellError.message : ShellError → String
  | .unclosedQuotation => "No closing quotation"
  | .danglingEscape => "No escaped character"

namespace ShellWords

/-- The characters that separate words. -/
def isSeparator (character : Char) : Bool :=
  character == ' ' || character == '\t' || character == '\r' || character == '\n'

/-- Where a reader of a command line stands. -/
inductive Place
  /-- Between two words. -/
  | outside
  /-- In a word, outside quotation marks. -/
  | word
  /-- Between single quotation marks. -/
  | single
  /-- Between double quotation marks. -/
  | double
deriving DecidableEq

/-- Put a character in front of the first word. -/
def consFirst (characters : List Char) : List (List Char) → List (List Char)
  | [] => [characters]
  | first :: rest => (characters ++ first) :: rest

/--
The words of a text. Inside a word the first one of the answer is its remainder; it may be empty,
and it is there even then.
-/
def splitAt : Place → List Char → Except ShellError (List (List Char))
  | .outside, [] => .ok []
  | .word, [] => .ok [[]]
  | .single, [] => .error .unclosedQuotation
  | .double, [] => .error .unclosedQuotation
  | .single, character :: rest =>
    if character = '\'' then splitAt .word rest
    else consFirst [character] <$> splitAt .single rest
  | .double, '\\' :: [] => .error .danglingEscape
  | .double, '\\' :: character :: rest =>
    if character = '"' ∨ character = '\\' then consFirst [character] <$> splitAt .double rest
    else consFirst ['\\', character] <$> splitAt .double rest
  | .double, character :: rest =>
    if character = '"' then splitAt .word rest
    else consFirst [character] <$> splitAt .double rest
  | _, '\\' :: [] => .error .danglingEscape
  | _, '\\' :: character :: rest => consFirst [character] <$> splitAt .word rest
  | place, character :: rest =>
    if isSeparator character then
      if place = .word then ([] :: ·) <$> splitAt .outside rest else splitAt .outside rest
    else if character = '\'' then splitAt .single rest
    else if character = '"' then splitAt .double rest
    else consFirst [character] <$> splitAt .word rest

/-- The words of a command line. -/
def split (text : String) : Except ShellError (List String) := do
  return (← splitAt .outside text.toList).map String.ofList

/-- The characters that need no quotation marks. -/
def isSafe (character : Char) : Bool :=
  character.isAlphanum || "_@%+=:,./-".toList.contains character

/-- A single quotation mark inside single quotation marks. -/
def quotedMark : List Char := ['\'', '"', '\'', '"', '\'']

/-- A word as it has to be written in a command line. -/
def quote (word : String) : String :=
  if !word.isEmpty && word.toList.all isSafe then word
  else
    String.ofList <|
      '\'' :: word.toList.flatMap (fun c => if c = '\'' then quotedMark else [c]) ++ ['\'']

/-- Words as a command line. -/
def join (words : List String) : String :=
  String.intercalate " " (words.map quote)

end ShellWords

end QueryPrep.Text
