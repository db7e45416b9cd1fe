/-!
# Control sequences

An escape character and a bracket start a control sequence: parameters follow, then intermediate
characters, and one final character ends it. A terminal obeys such a sequence and shows nothing of
it, so a stream that leads elsewhere does without. An escape character that starts no complete
sequence is a character like any other.
-/

namespace QueryPrep.Text

namespace ControlSequence

/-- Is the character a parameter, as digits and semicolons are? -/
def isParameter (character : Char) : Bool :=
  '0' ≤ character && character ≤ '?'

/-- Is the character one that may stand between the parameters and the end? -/
def isIntermediate (character : Char) : Bool :=
  ' ' ≤ character && character ≤ '/'

/-- Is the character one that ends a control sequence? -/
def isFinal (character : Char) : Bool :=
  '@' ≤ character && character ≤ '~'

/-- The text behind the control sequence that it starts with, if there is one. -/
def behind? : List Char → Option (List Char)
  | '\x1b' :: '[' :: rest =>
    match (rest.dropWhile isParameter).dropWhile isIntermediate with
    | final :: following => if isFinal final then some following else none
    | [] => none
  | _ => none

/-- A control sequence takes characters, so there are fewer behind it. -/
theorem length_lt_of_behind? {text following : List Char} (found : behind? text = some following) :
    following.length < text.length := by
  unfold behind? at found
  split at found
  case h_1 rest =>
    split at found
    case h_1 final later ended =>
      split at found
      · cases found
        have shorter := (List.dropWhile_suffix isIntermediate
          (l := rest.dropWhile isParameter)).length_le
        rw [ended] at shorter
        have shortest := (List.dropWhile_suffix isParameter (l := rest)).length_le
        simp only [List.length_cons] at shorter ⊢
        omega
      · cases found
    case h_2 => cases found
  case h_2 => cases found

/-- A control sequence starts with an escape character. -/
theorem behind?_cons_of_ne {character : Char} (plain : character ≠ '\x1b') (rest : List Char) :
    behind? (character :: rest) = none := by
  unfold behind?
  split
  case h_1 same =>
    cases same
    exact absurd rfl plain
  case h_2 => rfl

end ControlSequence

/--
The text without its control sequences. What comes together where one has been left out is not
looked at again.
-/
def withoutControlSequences : List Char → List Char
  | [] => []
  | character :: rest =>
    match found : ControlSequence.behind? (character :: rest) with
    | some following =>
      have := ControlSequence.length_lt_of_behind? found
      withoutControlSequences following
    | none => character :: withoutControlSequences rest
termination_by text => text.length
decreasing_by
  · assumption
  · exact Nat.lt_succ_self _

/-- Text without escape characters is left as it is. -/
theorem withoutControlSequences_eq_self {text : List Char} (plain : '\x1b' ∉ text) :
    withoutControlSequences text = text := by
  induction text with
  | nil => rw [withoutControlSequences]
  | cons character rest ih =>
    rw [List.mem_cons, not_or] at plain
    have starts := ControlSequence.behind?_cons_of_ne (Ne.symm plain.1) rest
    rw [withoutControlSequences]
    split
    case h_1 found =>
      rw [starts] at found
      cases found
    case h_2 => rw [ih plain.2]

/-- What is left of a text on a stream that leads to no terminal. -/
def plainText (text : String) : String :=
  String.ofList (withoutControlSequences text.toList)

end QueryPrep.Text
