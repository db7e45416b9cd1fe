/-!
# Settings that still have to be checked

Values of any shape, given under names, and what can be wrong with them. All faults are reported,
each with its kind and the name that the value was given under.
-/

namespace QueryPrep

/-- A value as far as checking it goes. -/
inductive Datum
  | null
  | boolean (value : Bool)
  | integer (value : Int)
  /-- A number that is no integer. -/
  | fraction
  | text (value : String)
  /-- An array or an object. -/
  | compound
deriving DecidableEq

/-- Values by name. -/
abbrev Settings := List (String × Datum)

/-- What can be wrong with a value. -/
inductive FaultKind
  | missing
  | noString
  | noChoice
  | noBoolean
  | unreadableBoolean
deriving DecidableEq

/-- The word that a report uses for a fault. -/
def FaultKind.word : FaultKind → String
  | .missing => "missing"
  | .noString => "string_type"
  | .noChoice => "literal_error"
  | .noBoolean => "bool_type"
  | .unreadableBoolean => "bool_parsing"

/-- A fault and the name of the value that has it. -/
structure Fault where
  kind : FaultKind
  name : String
deriving DecidableEq

/-- The result of checking one value: it is sound, or it has faults. -/
abbrev Checked (α : Type) := Except (List Fault) α

/-- Both values, or the faults of both, those of the first in front. -/
def Checked.both {α β : Type} : Checked α → Checked β → Checked (α × β)
  | .ok first, .ok second => .ok (first, second)
  | .ok _, .error faults => .error faults
  | .error faults, .ok _ => .error faults
  | .error faults, .error others => .error (faults ++ others)

/-- A string. -/
def checkString (name : String) : Datum → Checked String
  | .text value => .ok value
  | _ => .error [⟨.noString, name⟩]

/-- A string under the first of the names that is given; without any, the default. -/
def checkStringOr (settings : Settings) (default : String) : (names : List String) → Checked String
  | [] => .ok default
  | name :: others =>
    match settings.lookup name with
    | some value => checkString name value
    | none => checkStringOr settings default others

end QueryPrep
