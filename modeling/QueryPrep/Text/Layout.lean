/-!
# Layout

The pieces that printed documents are put together from. An absent part is an empty text, and it
takes its separator or its wrapping with it.
-/

namespace QueryPrep.Text

/-- The parts that are not empty, with the separator between them. -/
def joinPresent (separator : String) (parts : List String) : String :=
  String.intercalate separator (parts.filter (· ≠ ""))

/-- The text between two others; nothing at all when it is empty. -/
def wrap (opening text closing : String) : String :=
  if text = "" then "" else opening ++ text ++ closing

/-- Two blanks after every line feed. -/
def indentRest (text : List Char) : List Char :=
  text.flatMap fun character => if character = '\n' then ['\n', ' ', ' '] else [character]

/-- Every line of the text moved to the right by two blanks; an empty text stays empty. -/
def indent (text : String) : String :=
  wrap "  " (String.ofList (indentRest text.toList)) ""

/-- The items between braces, one on a line; bare braces when there are none. -/
def braced (items : List String) : String :=
  if items.isEmpty then "\x7b\x7d"
  else "\x7b\n" ++ indent (joinPresent "\n" items) ++ "\n\x7d"

end QueryPrep.Text
