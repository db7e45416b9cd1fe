import QueryPrep.Text.Quoted

/-!
# JSON objects as text

An object with one member on a line, indented by two blanks.
-/

namespace QueryPrep.Text.JsonObject

/-- Only what a JSON string cannot hold is escaped, with lower-case digits. -/
def style : QuoteStyle where
  numeric character := character.toNat < 0x20
  digit := lowerHexDigit

/-- A string value. -/
def string (text : String) : String :=
  style.quote text

/-- A Boolean value. -/
def boolean (value : Bool) : String :=
  if value then "true" else "false"

/-- One member on its line. -/
def renderMember (member : String × String) : String :=
  "  " ++ string member.1 ++ ": " ++ member.2

/-- An object, given its member names and the texts of the values. -/
def render (members : List (String × String)) : String :=
  "\x7b\n" ++ String.intercalate ",\n" (members.map renderMember) ++ "\n\x7d"

end QueryPrep.Text.JsonObject
