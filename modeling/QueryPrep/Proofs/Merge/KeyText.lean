import QueryPrep.Merge.ArgumentKey
import QueryPrep.Proofs.Text.SelfDelimiting

/-!
# Argument keys can be read back

A key is the text of a JSON array. Each part of it ends by itself: texts because they are quoted,
arrays and objects because nothing in them begins with the bracket that closes them. So the key of
a list of arguments says what the names and the canonical values are, in the order in which the
arguments stand once they are sorted.

A variable is written like an object. It is told apart by its only field, whose name is none.
-/

namespace QueryPrep.Graphql

open QueryPrep.Text

theorem digitsDiffer_keyStyle : keyStyle.DigitsDiffer := by
  unfold QuoteStyle.DigitsDiffer
  decide

namespace CanonicalValue

/-- The first character of a value that is written. -/
def opening : CanonicalValue → Char
  | .null => 'n'
  | .boolean value => if value then 't' else 'f'
  | .text _ => '"'
  | .variable _ => '\x7b'
  | .list _ => '['
  | .object _ => '\x7b'

/-- A field of an object with its name. -/
def writeNamed (field : Name × CanonicalValue) : List Char :=
  writeField field.1.text field.2.write

/-- An argument, given by its name and its canonical value. -/
def writeArgument (argument : Name × CanonicalValue) : List Char :=
  writeObject
    [writeField "name" (writeText argument.1.text), writeField "value" argument.2.write]

theorem writeEach_eq_map (values : List CanonicalValue) : writeEach values = values.map write := by
  induction values with
  | nil => rfl
  | cons value rest ih => rw [writeEach, ih, List.map_cons]

theorem writeFields_eq_map (fields : List (Name × CanonicalValue)) :
    writeFields fields = fields.map writeNamed := by
  induction fields with
  | nil => rfl
  | cons field rest ih => rw [writeFields, ih, List.map_cons, writeNamed]

theorem exists_write_eq (value : CanonicalValue) : ∃ rest, value.write = value.opening :: rest := by
  cases value with
  | boolean value => cases value <;> exact ⟨_, by rw [write]; rfl⟩
  | _ => exact ⟨_, by rw [write]; rfl⟩

theorem opening_eq_of_write_append_eq {value other : CanonicalValue} {rest following : List Char}
    (same : value.write ++ rest = other.write ++ following) : value.opening = other.opening := by
  rcases value.exists_write_eq with ⟨tail, written⟩
  rcases other.exists_write_eq with ⟨otherTail, otherWritten⟩
  rw [written, otherWritten] at same
  exact (List.cons.inj same).1

theorem neverOpensWith_write : NeverOpensWith write ']' := by
  intro value rest following same
  rcases value.exists_write_eq with ⟨tail, written⟩
  rw [written] at same
  have closes : value.opening = ']' := (List.cons.inj same).1
  revert closes
  fun_cases opening value <;> decide

theorem neverOpensWith_writeNamed : NeverOpensWith writeNamed '\x7d' := by
  intro field rest following same
  have closes : '"' = '\x7d' := (List.cons.inj same).1
  exact absurd closes (by decide)

theorem selfDelimiting_writeText (text : String) : SelfDelimiting writeText text := by
  intro other rest following same
  rcases QuoteStyle.selfDelimiting_quoteChars digitsDiffer_keyStyle _ _ _ _ same with
    ⟨sameText, sameRest⟩
  exact ⟨String.toList_inj.mp sameText, sameRest⟩

theorem selfDelimiting_writeNamed {field : Name × CanonicalValue}
    (delimited : SelfDelimiting write field.2) : SelfDelimiting writeNamed field := by
  intro other rest following same
  simp only [writeNamed, writeField, List.append_assoc] at same
  rcases selfDelimiting_writeText _ _ _ _ same with ⟨sameName, sameTail⟩
  rcases delimited _ _ _ (List.cons.inj sameTail).2 with ⟨sameValue, sameRest⟩
  exact ⟨Prod.ext (Name.ext sameName) sameValue, sameRest⟩

theorem variableTag_ne_text (name : Name) : "$variable" ≠ name.text := by
  intro same
  have member : '$' ∈ name.text.toList := by rw [← same]; decide
  exact absurd (name.isNameContinue_of_mem member) (by decide)

theorem write_variable_append_ne (name : Name) (fields : List (Name × CanonicalValue))
    (rest following : List Char) :
    write (.variable name) ++ rest ≠ write (.object fields) ++ following := by
  intro same
  rw [write, write, writeFields_eq_map] at same
  cases fields with
  | nil => simp [writeObject, writeField, writeText, QuoteStyle.quoteChars] at same
  | cons field fields =>
      simp only [writeObject, SelfDelimiting.intercalate_cons, List.map_cons, writeNamed,
        writeField, List.append_assoc, List.cons_append, List.cons.injEq, true_and] at same
      exact variableTag_ne_text field.1 (selfDelimiting_writeText _ _ _ _ same).1

theorem selfDelimiting_variable (name : Name) :
    SelfDelimiting (fun name => write (.variable name)) name := by
  intro other rest following same
  simp only [write, writeObject, SelfDelimiting.intercalate_cons, List.flatMap_nil, writeField,
    List.append_assoc, List.cons_append, List.append_nil] at same
  have sameField := (selfDelimiting_writeText _ _ _ _ (List.cons.inj same).2).2
  rcases selfDelimiting_writeText _ _ _ _ (List.cons.inj sameField).2 with ⟨sameName, sameRest⟩
  exact ⟨Name.ext sameName, (List.cons.inj sameRest).2⟩

theorem selfDelimiting_list {values : List CanonicalValue}
    (each : ∀ value ∈ values, SelfDelimiting write value) :
    SelfDelimiting (fun values => write (.list values)) values := by
  have written : (fun values => write (.list values)) =
      fun values => '[' :: ([','].intercalate (values.map write) ++ [']']) := by
    funext values
    rw [write, writeEach_eq_map]
    rfl
  rw [written]
  exact (SelfDelimiting.separated each neverOpensWith_write (by decide)).opened '['

theorem selfDelimiting_object {fields : List (Name × CanonicalValue)}
    (each : ∀ field ∈ fields, SelfDelimiting write field.2) :
    SelfDelimiting (fun fields => write (.object fields)) fields := by
  have written : (fun fields => write (.object fields)) =
      fun fields => '\x7b' :: ([','].intercalate (fields.map writeNamed) ++ ['\x7d']) := by
    funext fields
    rw [write, writeFields_eq_map]
    rfl
  rw [written]
  have separated := SelfDelimiting.separated
    (fun field member => selfDelimiting_writeNamed (each field member))
    neverOpensWith_writeNamed (by decide : ',' ≠ '\x7d')
  exact separated.opened '\x7b'

mutual

/-- A canonical value ends by itself, so that it can be read back. -/
theorem selfDelimiting_write : (value : CanonicalValue) → SelfDelimiting write value
  | .null => by
      intro other rest following same
      have opens := opening_eq_of_write_append_eq same
      cases other with
      | null => exact ⟨rfl, List.append_cancel_left same⟩
      | _ => grind [opening]
  | .boolean value => by
      intro other rest following same
      have opens := opening_eq_of_write_append_eq same
      cases other with
      | boolean other =>
          have sameValue : value = other := by
            revert opens
            cases value <;> cases other <;> decide
          subst other
          exact ⟨rfl, List.append_cancel_left same⟩
      | _ => grind [opening]
  | .text content => by
      intro other rest following same
      have opens := opening_eq_of_write_append_eq same
      cases other with
      | text other =>
          rcases selfDelimiting_writeText content other rest following same with ⟨rfl, sameRest⟩
          exact ⟨rfl, sameRest⟩
      | _ => grind [opening]
  | .variable name => by
      intro other rest following same
      have opens := opening_eq_of_write_append_eq same
      cases other with
      | «variable» other =>
          rcases selfDelimiting_variable name other rest following same with ⟨rfl, sameRest⟩
          exact ⟨rfl, sameRest⟩
      | object fields => exact absurd same (write_variable_append_ne _ _ _ _)
      | _ => grind [opening]
  | .list values => by
      intro other rest following same
      have opens := opening_eq_of_write_append_eq same
      have each := selfDelimiting_write_of_mem values
      cases other with
      | list others =>
          rcases selfDelimiting_list each others rest following same with ⟨rfl, sameRest⟩
          exact ⟨rfl, sameRest⟩
      | _ => grind [opening]
  | .object fields => by
      intro other rest following same
      have opens := opening_eq_of_write_append_eq same
      have each := selfDelimiting_write_of_mem_fields fields
      cases other with
      | object others =>
          rcases selfDelimiting_object each others rest following same with ⟨rfl, sameRest⟩
          exact ⟨rfl, sameRest⟩
      | «variable» name => exact absurd same.symm (write_variable_append_ne _ _ _ _)
      | _ => grind [opening]

theorem selfDelimiting_write_of_mem : (values : List CanonicalValue) →
    ∀ value ∈ values, SelfDelimiting write value
  | [] => by simp
  | value :: rest =>
      List.forall_mem_cons.mpr ⟨selfDelimiting_write value, selfDelimiting_write_of_mem rest⟩

theorem selfDelimiting_write_of_mem_fields : (fields : List (Name × CanonicalValue)) →
    ∀ field ∈ fields, SelfDelimiting write field.2
  | [] => by simp
  | (_, value) :: rest =>
      List.forall_mem_cons.mpr
        ⟨selfDelimiting_write value, selfDelimiting_write_of_mem_fields rest⟩

end

theorem neverOpensWith_writeArgument : NeverOpensWith writeArgument ']' := by
  intro argument rest following same
  have closes : '\x7b' = ']' := (List.cons.inj same).1
  exact absurd closes (by decide)

theorem selfDelimiting_writeArgument (argument : Name × CanonicalValue) :
    SelfDelimiting writeArgument argument := by
  intro other rest following same
  simp only [writeArgument, writeObject, SelfDelimiting.intercalate_cons, List.flatMap_cons,
    List.flatMap_nil, writeField, List.append_assoc, List.cons_append, List.nil_append] at same
  have sameFields := (selfDelimiting_writeText _ _ _ _ (List.cons.inj same).2).2
  rcases selfDelimiting_writeText _ _ _ _ (List.cons.inj sameFields).2 with ⟨sameName, sameTail⟩
  have sameField := (selfDelimiting_writeText _ _ _ _ (List.cons.inj sameTail).2).2
  rcases selfDelimiting_write _ _ _ _ (List.cons.inj sameField).2 with ⟨sameValue, sameRest⟩
  exact ⟨Prod.ext (Name.ext sameName) sameValue, (List.cons.inj sameRest).2⟩

end CanonicalValue

end QueryPrep.Graphql
