import QueryPrep.Text.Lines

/-!
# Block strings

A block string stands between triple quotation marks. Its value leaves out the indentation that
all lines but the first share and the blank lines at both ends. When it is written again, a
triple quotation mark inside it is escaped, and line feeds are added around the text wherever it
has several lines, is long, or could otherwise be misread.
-/

namespace QueryPrep.Graphql.BlockString

open QueryPrep.Text

/-- Indentation consists of spaces and tabs. -/
def isIndentation (character : Char) : Bool :=
  character == ' ' || character == '\t'

/-- How far a line is indented; a tab counts as one. -/
def indentation (line : List Char) : Nat :=
  (line.takeWhile isIndentation).length

/-- A blank line holds indentation only. -/
def isBlankLine (line : List Char) : Bool :=
  line.all isIndentation

/-- The least indentation of the lines that are not blank. -/
def commonIndentation (lines : List (List Char)) : Nat :=
  (((lines.filter (!isBlankLine ·)).map indentation).min?).getD 0

/-- The lines without blank ones at either end. -/
def trimBlankLines (lines : List (List Char)) : List (List Char) :=
  ((lines.dropWhile isBlankLine).reverse.dropWhile isBlankLine).reverse

/-- All lines but the first lose the indentation that they share. -/
def dedent : List (List Char) → List (List Char)
  | [] => []
  | first :: others =>
    let common := commonIndentation others
    first :: others.map (·.drop common)

/-- The value of the text between the triple quotation marks. -/
def value (raw : List Char) : String :=
  String.ofList (List.intercalate ['\n'] (trimBlankLines (dedent (splitLines raw))))

/-- Every triple quotation mark with a backslash before it. -/
def escapeTriples : List Char → List Char
  | '"' :: '"' :: '"' :: rest => '\\' :: '"' :: '"' :: '"' :: escapeTriples rest
  | character :: rest => character :: escapeTriples rest
  | [] => []

/-- The longest value that stays on the line of its quotation marks. -/
def lineLimit : Nat := 70

/-- A block string as it is printed. -/
def print (value : String) : String :=
  let text := value.toList
  let escaped := escapeTriples text
  let lines := splitLines escaped
  let severalLines := lines.length > 1
  let startsIndented := text.head?.any isIndentation
  let othersIndented := severalLines && lines.tail.all fun line => line.head?.all isIndentation
  let endsInTriple := ['\\', '"', '"', '"'].isSuffixOf escaped
  let endsInQuote := text.getLast? == some '"' && !endsInTriple
  let endsInBackslash := text.getLast? == some '\\'
  let spread := severalLines || text.length > lineLimit || endsInQuote || endsInBackslash ||
    othersIndented || endsInTriple
  let opensLine := (spread && !(!severalLines && startsIndented)) || othersIndented
  String.ofList <|
    ['"', '"', '"'] ++ (if opensLine then ['\n'] else []) ++ escaped ++
      (if spread then ['\n'] else []) ++ ['"', '"', '"']

end QueryPrep.Graphql.BlockString
