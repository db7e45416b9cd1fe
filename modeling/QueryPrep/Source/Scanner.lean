import QueryPrep.Event
import QueryPrep.Text.Blank

/-!
# Scanning text for definitions

A scanner goes through a text from left to right. It looks for a keyword, then for the name after
it, then for the braces of the body, and starts over behind the closing brace. Whatever else is in
the text does not matter to it: it knows neither comments nor strings, and a keyword counts in the
middle of a word.

The scanner is a value, and each step answers with the scanner after it, also when the step fails.
-/

namespace QueryPrep.Source

open QueryPrep.Graphql QueryPrep.Text

/-- What a scanner is looking for. -/
inductive ScanState
  /-- A keyword. -/
  | scanning
  /-- The name after a keyword. -/
  | inName
  /-- The end of a body. -/
  | inBody
deriving DecidableEq

/-- A reason why a text cannot be split. -/
inductive SplitError
  /-- There is no name at this position, where one has to be. -/
  | malformed (position : Nat)
  /-- The text ends inside the body of this definition. -/
  | unmatched (name : String)
  /-- A body has been read although no definition had begun. -/
  | notBegun
deriving DecidableEq

/-- The message of an error. -/
def SplitError.message : SplitError → String
  | .malformed position => "Could not parse definition name at position " ++ toString position
  | .unmatched name => "No matching closing brace found for definition " ++ name
  | .notBegun => "No definition has begun"

/-- A place in a text, with what has been found before it. -/
structure Scanner where
  text : List Char
  /-- The number of characters that have been passed. -/
  index : Nat
  /-- The characters that have not been passed. -/
  ahead : List Char
  state : ScanState
  /-- The complete definitions, in source order. -/
  definitions : List RawDefinition
  /-- The kind of the definition that was begun last. -/
  kind : Option DefinitionKind
  /-- The name of the definition that was begun last, once it is known. -/
  name : String
  /-- The position of the keyword that was found last. -/
  start : Nat
  ahead_eq : ahead = text.drop index

/-- A step of a scanner. -/
abbrev Scan := EStateM SplitError Scanner

namespace Scanner

/-- A scanner at the start of a text. -/
def ofText (text : String) : Scanner where
  text := text.toList
  index := 0
  ahead := text.toList
  state := .scanning
  definitions := []
  kind := none
  name := ""
  start := 0
  ahead_eq := rfl

/-- The scanner behind the next characters. -/
def pass (scanner : Scanner) (count : Nat) : Scanner :=
  { scanner with
    index := scanner.index + count
    ahead := scanner.ahead.drop count
    ahead_eq := by rw [scanner.ahead_eq, List.drop_drop] }

/-- The scanner behind the blanks that it stands before. -/
def skipBlanks (scanner : Scanner) : Scanner :=
  scanner.pass (scanner.ahead.takeWhile isBlank).length

/-- Begin a definition if a keyword follows, else pass one character. -/
def scan (scanner : Scanner) : Scanner :=
  let place := scanner.skipBlanks
  if place.ahead.isEmpty then place
  else
    match DefinitionKind.opening? place.ahead with
    | some kind =>
      { place.pass kind.keyword.length with
        kind := some kind
        name := ""
        start := place.index
        state := .inName }
    | none => place.pass 1

/--
Take the name that has to follow and go on to the next opening brace. Without one the rest of the
text is passed, and the definition stays without a body.
-/
def readName : Scan Unit := fun scanner =>
  let place := scanner.skipBlanks
  let name := place.ahead.takeWhile isNameContinue
  if name.isEmpty then
    .error (.malformed place.index) place
  else
    let named := { place.pass name.length with name := String.ofList name }
    let brace := named.pass (named.ahead.takeWhile (· != '\x7b')).length
    if brace.ahead.isEmpty then .ok () brace else .ok () { brace with state := .inBody }

/-- How far away the brace is that closes the outermost of `depth` open ones. -/
def closingOffset? (depth : Int) : List Char → Option Nat
  | [] => none
  | character :: rest =>
    if character = '\x7b' then (closingOffset? (depth + 1) rest).map (· + 1)
    else if character = '\x7d' then
      if depth = 1 then some 0 else (closingOffset? (depth - 1) rest).map (· + 1)
    else (closingOffset? depth rest).map (· + 1)

/-- The text from the last keyword up to `position`. -/
def contentUpTo (scanner : Scanner) (position : Nat) : String :=
  String.ofList ((scanner.text.drop scanner.start).take (position - scanner.start))

/--
Read a body to its closing brace and add the definition. Without a closing brace the rest of the
text is passed.
-/
def readBody : Scan Unit := fun scanner =>
  match closingOffset? 0 scanner.ahead with
  | none => .ok () (scanner.pass scanner.ahead.length)
  | some offset =>
    match scanner.kind with
    | none => .error .notBegun scanner
    | some kind =>
      let behind := scanner.pass (offset + 1)
      let definition := ⟨kind, scanner.name, scanner.contentUpTo behind.index⟩
      .ok () { behind with definitions := scanner.definitions ++ [definition], state := .scanning }

/-- The step that the state asks for. -/
def step : Scan Unit := fun scanner =>
  match scanner.state with
  | .scanning => .ok () scanner.scan
  | .inName => readName scanner
  | .inBody => readBody scanner

/-- At most `rounds` steps, up to the end of the text. -/
def runWithin : (rounds : Nat) → Scan Unit
  | 0 => fun scanner => .ok () scanner
  | rounds + 1 => fun scanner =>
    if scanner.ahead.isEmpty then .ok () scanner
    else
      match step scanner with
      | .ok () next => runWithin rounds next
      | .error error next => .error error next

/-- Steps up to the end of the text. Each passes a character at least. -/
def run : Scan Unit := fun scanner =>
  runWithin scanner.ahead.length scanner

/-- What a scanner at the end of its text has found, or what it still misses there. -/
def conclude (scanner : Scanner) : Except SplitError (List RawDefinition) :=
  match scanner.state with
  | .inBody => .error (.unmatched scanner.name)
  | .inName =>
    if scanner.name = "" then .error (.malformed scanner.index) else .ok scanner.definitions
  | .scanning => .ok scanner.definitions

/-- All definitions of the text, those that were found before included. -/
def split : Scan (List RawDefinition) := fun scanner =>
  match run scanner with
  | .error error final => .error error final
  | .ok () final =>
    match final.conclude with
    | .ok definitions => .ok definitions final
    | .error error => .error error final

/-! ## Reports -/

/-- One event for every definition that has been added since. -/
def foundSince (before after : Scanner) : List Event :=
  (after.definitions.drop before.definitions.length).map fun definition =>
    .definitionFound definition.kind definition.name

/-- The event of a definition that turned out to have no body. -/
def skipped (scanner : Scanner) : List Event :=
  if scanner.state = .inName ∧ scanner.name ≠ "" then [.definitionSkipped scanner.name] else []

/-- What is reported while a text is split. -/
def splitEvents (scanner : Scanner) : List Event :=
  match split scanner with
  | .ok _ final => foundSince scanner final ++ final.skipped
  | .error _ final => foundSince scanner final

end Scanner

/-- The definitions of a text in source order. -/
def splitDefinitions (text : String) : Except SplitError (List RawDefinition) :=
  match Scanner.split (.ofText text) with
  | .ok definitions _ => .ok definitions
  | .error error _ => .error error

/-- What is reported while a text is split into definitions. -/
def splitEvents (text : String) : List Event :=
  Scanner.splitEvents (.ofText text)

end QueryPrep.Source
