/-!
# Lines

A line ends at a line feed, at a carriage return, or at the two together, which count as one
ending. Reading text from bytes decodes them and turns every ending into a line feed.
-/

namespace QueryPrep.Text

/-- The lines of a text: one more than it has line endings, so a text without any is one line. -/
def splitLines : List Char → List (List Char)
  | [] => [[]]
  | '\r' :: '\n' :: rest => [] :: splitLines rest
  | '\r' :: rest => [] :: splitLines rest
  | '\n' :: rest => [] :: splitLines rest
  | character :: rest =>
    match splitLines rest with
    | [] => [[character]]
    | line :: lines => (character :: line) :: lines

/-- The same text with a line feed in place of every line ending. -/
def withLineFeeds : List Char → List Char
  | [] => []
  | '\r' :: '\n' :: rest => '\n' :: withLineFeeds rest
  | '\r' :: rest => '\n' :: withLineFeeds rest
  | character :: rest => character :: withLineFeeds rest

/-- The content of a text file as it is read: every line ends in a line feed. -/
def readContent (content : String) : String :=
  String.ofList (withLineFeeds content.toList)

/-- The text that bytes are read as, if they are the encoding of a text. -/
def readText? (bytes : ByteArray) : Option String :=
  (String.fromUTF8? bytes).map readContent

end QueryPrep.Text
