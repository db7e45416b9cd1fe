/-!
# Reading command line arguments

Options may stand anywhere among the other arguments. A long one takes its value after an equals
sign or from the next argument. Short ones can be written together; the first that takes a value
takes the rest of the argument, or the next argument if nothing is left. Two hyphens end the
options. When an option is given again, the last value counts.
-/

namespace QueryPrep.CommandLine

/-- An option of a command. -/
structure OptionSpec where
  long : String
  short : Option Char
  takesValue : Bool
deriving DecidableEq

/-- The arguments of a command, sorted out. -/
structure Arguments where
  /-- The long names of the options with their values; a flag has an empty one. -/
  options : List (String × String)
  positionals : List String
deriving DecidableEq

namespace Arguments

/-- No arguments. -/
def none : Arguments := ⟨[], []⟩

/-- The arguments with more options in front. -/
def withOptions (options : List (String × String)) (arguments : Arguments) : Arguments :=
  { arguments with options := options ++ arguments.options }

/-- The arguments with another positional one in front. -/
def withPositional (argument : String) (arguments : Arguments) : Arguments :=
  { arguments with positionals := argument :: arguments.positionals }

/-- The last value of an option. -/
def value? (arguments : Arguments) (long : String) : Option String :=
  arguments.options.reverse.lookup long

/-- Has the flag been given? -/
def flag (arguments : Arguments) (long : String) : Bool :=
  (arguments.value? long).isSome

/-- Does the argument hold options? A single hyphen does not. -/
def isOption : List Char → Bool
  | '-' :: _ :: _ => true
  | _ => false

/-- The options of one argument, and the one that takes its value from the next argument. -/
abbrev Reading := Option (List (String × String) × Option String)

/-- Read a long option, without its hyphens. -/
def readLong (specs : List OptionSpec) (text : List Char) : Reading := do
  let name := String.ofList (text.takeWhile (· != '='))
  let spec ← specs.find? (·.long == name)
  match text.dropWhile (· != '='), spec.takesValue with
  | [], true => return ([], some name)
  | [], false => return ([(name, "")], Option.none)
  | _ :: value, true => return ([(name, String.ofList value)], Option.none)
  | _ :: _, false => failure

/-- Read short options that are written together, without their hyphen. -/
def readShort (specs : List OptionSpec) : List Char → Reading
  | [] => some ([], Option.none)
  | letter :: rest => do
    let spec ← specs.find? (·.short == some letter)
    if spec.takesValue then
      if rest.isEmpty then return ([], some spec.long)
      else return ([(spec.long, String.ofList rest)], Option.none)
    else
      let (options, pending) ← readShort specs rest
      return ((spec.long, "") :: options, pending)

/-- Read an argument that holds options. -/
def readOption (specs : List OptionSpec) : List Char → Reading
  | '-' :: '-' :: text => readLong specs text
  | '-' :: text => readShort specs text
  | _ => failure

/-- Read arguments. `pending` is an option that takes the next argument as its value. -/
def read (specs : List OptionSpec) : (pending : Option String) → List String → Option Arguments
  | some _, [] => failure
  | Option.none, [] => some none
  | some long, value :: rest => withOptions [(long, value)] <$> read specs Option.none rest
  | Option.none, argument :: rest =>
    if argument = "--" then some ⟨[], rest⟩
    else if isOption argument.toList then do
      let (options, pending) ← readOption specs argument.toList
      withOptions options <$> read specs pending rest
    else withPositional argument <$> read specs Option.none rest

end Arguments

end QueryPrep.CommandLine
