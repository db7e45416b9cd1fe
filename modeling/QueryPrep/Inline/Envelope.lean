import QueryPrep.Settings
import QueryPrep.Text.JsonObject

/-!
# Envelopes

The outcome of inlining as a JSON object: whether it succeeded, and the result or the error.
-/

namespace QueryPrep.Inline

open QueryPrep.Text

/-- An outcome with whatever there is to tell about it. -/
structure Envelope where
  success : Bool
  result : Option String
  error : Option String
deriving DecidableEq

namespace Envelope

/-- The envelope of a result. -/
def ofResult (result : String) : Envelope := ⟨true, some result, none⟩

/-- The envelope of an error. -/
def ofError (message : String) : Envelope := ⟨false, none, some message⟩

/-- The words for the Boolean values, in lower case. -/
def booleanOfWord? (word : String) : Option Bool :=
  if ["1", "on", "t", "true", "y", "yes"].contains word then some true
  else if ["0", "off", "f", "false", "n", "no"].contains word then some false
  else none

/-- Is the number one that a signed word of 64 bits can hold? -/
def fitsWord (value : Int) : Bool :=
  -0x8000000000000000 ≤ value && value < 0x8000000000000000

/--
A Boolean value, or a number or a word that stands for one. A number that fits no word is not even
read.
-/
def checkBoolean (name : String) : Datum → Checked Bool
  | .boolean value => .ok value
  | .integer value =>
    if value = 0 then .ok false
    else if value = 1 then .ok true
    else if fitsWord value then .error [⟨.unreadableBoolean, name⟩]
    else .error [⟨.noBoolean, name⟩]
  | .text value =>
    match booleanOfWord? value.toLower with
    | some value => .ok value
    | none => .error [⟨.unreadableBoolean, name⟩]
  | _ => .error [⟨.noBoolean, name⟩]

/-- The setting that has to be there. -/
def checkSuccess (settings : Settings) : Checked Bool :=
  match settings.lookup "success" with
  | none => .error [⟨.missing, "success"⟩]
  | some value => checkBoolean "success" value

/-- A string that may be null or not be there at all. -/
def checkOptional (settings : Settings) (name : String) : Checked (Option String) :=
  match settings.lookup name with
  | none => .ok none
  | some .null => .ok none
  | some value => some <$> checkString name value

/-- The envelope that the settings describe. Unknown names are ignored. -/
def ofSettings (settings : Settings) : Checked Envelope := do
  let (success, result, error) ←
    (checkSuccess settings).both
      ((checkOptional settings "result").both (checkOptional settings "error"))
  return ⟨success, result, error⟩

/-- An optional member of the object. -/
def member (name : String) (value : Option String) : List (String × String) :=
  (value.map fun text => (name, JsonObject.string text)).toList

/-- The envelope as text; what there is nothing to tell about is left out. -/
def toJson (envelope : Envelope) : String :=
  JsonObject.render <|
    ("success", JsonObject.boolean envelope.success) ::
      (member "result" envelope.result ++ member "error" envelope.error)

end Envelope

end QueryPrep.Inline
