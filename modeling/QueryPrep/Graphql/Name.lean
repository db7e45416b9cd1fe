/-!
# Names

A name starts with an ASCII letter or an underscore and goes on with letters, digits and
underscores. The type carries this shape, so whatever is built from names (response names,
merge keys, file names) may rely on it: a name is never empty, and it holds neither a blank nor a
colon nor a bracket nor a dollar sign.
-/

namespace QueryPrep.Graphql

/-- An ASCII letter or an underscore may open a name. -/
def isNameStart (character : Char) : Bool :=
  character.isAlpha || character == '_'

/-- Past the first character, digits are allowed too. -/
def isNameContinue (character : Char) : Bool :=
  character.isAlphanum || character == '_'

/-- The shape of a name: one opening character, then any number of further ones. -/
def isNameText : List Char → Bool
  | [] => false
  | first :: rest => isNameStart first && rest.all isNameContinue

/-- A name of the query language. -/
structure Name where
  /-- The name as it is written. -/
  text : String
  /-- It has the shape of a name. -/
  valid : isNameText text.toList = true
deriving DecidableEq

namespace Name

/-- The name that opens with `first` and takes the longest run of name characters after it. -/
def leading (first : Char) (following : List Char) (starts : isNameStart first = true) : Name where
  text := String.ofList (first :: following.takeWhile isNameContinue)
  valid := by
    simp [isNameText, starts, List.all_takeWhile]

/-- The name written as `text`, if it has the shape of one. -/
def ofString? (text : String) : Option Name :=
  if valid : isNameText text.toList = true then some ⟨text, valid⟩ else none

instance : ToString Name := ⟨Name.text⟩

@[ext]
theorem ext {first second : Name} (same : first.text = second.text) : first = second := by
  cases first
  cases second
  simp_all

/-- A name is never empty. -/
theorem toList_ne_nil (name : Name) : name.text.toList ≠ [] := by
  intro empty
  have valid := name.valid
  simp [empty, isNameText] at valid

/-- Every character of a name is a name character. -/
theorem isNameContinue_of_mem (name : Name) {character : Char}
    (member : character ∈ name.text.toList) : isNameContinue character = true := by
  have valid := name.valid
  cases characters : name.text.toList with
  | nil => simp [characters] at member
  | cons first rest =>
    rw [characters] at valid member
    simp only [isNameText, Bool.and_eq_true, List.all_eq_true] at valid
    rcases List.mem_cons.mp member with rfl | inRest
    · have starts := valid.1
      simp only [isNameStart, Bool.or_eq_true] at starts
      simp only [isNameContinue, Char.isAlphanum, Bool.or_eq_true]
      rcases starts with letter | underscore
      · exact Or.inl (Or.inl letter)
      · exact Or.inr underscore
    · exact valid.2 _ inRest

end Name

end QueryPrep.Graphql
