import QueryPrep.Merge.Selections

/-!
# Keys of different kinds

A key begins with a word, and the first character that no name may hold ends it. For a field the
word is the response name, and an opening bracket follows or nothing at all. For the other kinds it
is fixed, and a colon follows. So a key says what kind of selection it is for, whatever the names
and the strings in it are, and what follows the word says the rest.

Siblings with the same key are therefore either all nodes or all spreads, and no selection set is
lost where one sibling absorbs another.
-/

namespace QueryPrep.Graphql

open QueryPrep.Text

theorem toList_argumentKey (arguments : List Argument) :
    (argumentKey arguments).toList = [] ∨
      ∃ rest, (argumentKey arguments).toList = '[' :: rest := by
  unfold argumentKey
  split
  · left
    rfl
  · right
    simp [CanonicalValue.writeList]

theorem toList_argumentKey_ne (arguments : List Argument) (rest : List Char) :
    (argumentKey arguments).toList ≠ ':' :: rest := by
  rcases toList_argumentKey arguments with none | ⟨_, opened⟩
  · simp [none]
  · simp [opened]

/-- Text that does not go on with a name. -/
def EndsName (text : List Char) : Prop :=
  ∀ character ∈ text.head?, isNameContinue character = false

theorem EndsName.nil : EndsName [] := by
  simp [EndsName]

theorem EndsName.cons {character : Char} {rest : List Char}
    (stops : isNameContinue character = false) : EndsName (character :: rest) := by
  simpa [EndsName] using stops

theorem takeWhile_name_append (name : Name) {rest : List Char} (ends : EndsName rest) :
    (name.text.toList ++ rest).takeWhile isNameContinue = name.text.toList := by
  rw [List.takeWhile_append_of_pos fun _ member => name.isNameContinue_of_mem member]
  cases rest with
  | nil => simp
  | cons first others => simp [ends first rfl]

/-- A name and what follows it can be told apart. -/
theorem Name.append_inj {first second : Name} {rest following : List Char} (ends : EndsName rest)
    (otherEnds : EndsName following)
    (same : first.text.toList ++ rest = second.text.toList ++ following) :
    first = second ∧ rest = following := by
  have sameName := congrArg (List.takeWhile isNameContinue) same
  rw [takeWhile_name_append first ends, takeWhile_name_append second otherEnds] at sameName
  rw [sameName] at same
  exact ⟨Name.ext (String.toList_inj.mp sameName), List.append_cancel_left same⟩

theorem typeCondition_inj {typeCondition other : Option Name} :
    (typeCondition.map Name.text).getD "" = (other.map Name.text).getD "" ↔
      typeCondition = other := by
  have named (name : Name) : name.text ≠ "" := by
    intro empty
    exact name.toList_ne_nil (by rw [empty]; rfl)
  cases typeCondition with
  | none => cases other <;> simp [Ne.symm (named _)]
  | some name =>
      cases other with
      | none => simp [named]
      | some otherName => simp [Name.ext_iff]

theorem wrap_inj {opening closing first second : String} :
    wrap opening first closing = wrap opening second closing ↔ first = second := by
  constructor
  · intro same
    by_cases empty : first = "" <;> by_cases otherEmpty : second = "" <;>
      simp_all [wrap, String.append_eq_empty_iff]
  · rintro rfl
    rfl

theorem endsName_wrap (text : String) : EndsName (wrap " " text "").toList := by
  by_cases empty : text = ""
  · simp [wrap, empty, EndsName.nil]
  · simpa [wrap, empty] using EndsName.cons (by decide)

/-- Spreads that are printed the same way spread the same fragment, with the same directives. -/
theorem printSpread_inj {name other : Name} {directives others : List Directive} :
    printSpread name directives = printSpread other others ↔
      name = other ∧ printDirectives directives = printDirectives others := by
  constructor
  · intro same
    have sameText : name.text.toList ++ (wrap " " (printDirectives directives) "").toList =
        other.text.toList ++ (wrap " " (printDirectives others) "").toList := by
      simpa [printSpread, ← String.toList_inj] using same
    rcases Name.append_inj (endsName_wrap _) (endsName_wrap _) sameText with ⟨sameName, sameRest⟩
    exact ⟨sameName, wrap_inj.mp (String.toList_inj.mp sameRest)⟩
  · rintro ⟨rfl, same⟩
    rw [printSpread, printSpread, same]

namespace Selection

/-- The word that a key begins with. -/
def keyWord : Selection → Name
  | .node (.field label name _ _) _ => label.getD name
  | .node (.inlineFragment _ _) _ => ⟨"inline", rfl⟩
  | .spread _ _ => ⟨"other", rfl⟩

/-- What follows the word in a key. -/
def keyRest : Selection → List Char
  | .node (.field _ _ arguments _) _ => (argumentKey arguments).toList
  | .node (.inlineFragment typeCondition _) _ =>
      ':' :: ((typeCondition.map Name.text).getD "").toList
  | .spread name directives => ':' :: ("fragment_spread:" ++ printSpread name directives).toList

theorem toList_key (selection : Selection) :
    selection.key.toList = selection.keyWord.text.toList ++ selection.keyRest := by
  cases selection with
  | spread name directives => simp [keyWord, keyRest]
  | node head set => cases head <;> simp [keyWord, keyRest, Head.key]

theorem endsName_keyRest (selection : Selection) : EndsName selection.keyRest := by
  cases selection with
  | spread name directives => exact .cons (by decide)
  | node head set =>
      cases head with
      | inlineFragment typeCondition directives => exact .cons (by decide)
      | field label name arguments directives =>
          rw [keyRest]
          rcases toList_argumentKey arguments with none | ⟨rest, opened⟩
          · rw [none]
            exact .nil
          · rw [opened]
            exact .cons (by decide)

theorem key_eq_iff_keyWord_eq {first second : Selection} :
    first.key = second.key ↔
      first.keyWord = second.keyWord ∧ first.keyRest = second.keyRest := by
  rw [← String.toList_inj, toList_key, toList_key]
  constructor
  · exact Name.append_inj first.endsName_keyRest second.endsName_keyRest
  · rintro ⟨sameWord, sameRest⟩
    rw [sameWord, sameRest]

/--
Selections that ask for the same thing: fields with the same response name and the same argument
key, inline fragments on the same type, or spreads that are printed the same way.
-/
def SameRequest : Selection → Selection → Prop
  | .node (.field label name arguments _) _, .node (.field otherLabel otherName others _) _ =>
      label.getD name = otherLabel.getD otherName ∧ argumentKey arguments = argumentKey others
  | .node (.inlineFragment typeCondition _) _, .node (.inlineFragment other _) _ =>
      typeCondition = other
  | .spread name directives, .spread other others =>
      name = other ∧ printDirectives directives = printDirectives others
  | _, _ => False

theorem key_eq_iff_sameRequest {first second : Selection} :
    first.key = second.key ↔ first.SameRequest second := by
  have words : (⟨"inline", rfl⟩ : Name) ≠ ⟨"other", rfl⟩ := by decide
  rw [key_eq_iff_keyWord_eq]
  -- A colon follows the word unless the key is for a field, and then it never does.
  rcases first with ⟨_ | _, _⟩ | _ <;> rcases second with ⟨_ | _, _⟩ | _ <;>
    simp [keyWord, keyRest, SameRequest, toList_argumentKey_ne, Ne.symm (toList_argumentKey_ne _ _),
      words, words.symm, String.toList_inj, typeCondition_inj, printSpread_inj]

variable {name : Name} {directives : List Directive}

/-- A spread never shares its key with a node. -/
theorem key_spread_ne_key_node (head : Head) (set : Option (List Selection)) :
    (spread name directives).key ≠ (node head set).key := by
  intro same
  cases head <;> exact key_eq_iff_sameRequest.mp same

end Selection

end QueryPrep.Graphql
