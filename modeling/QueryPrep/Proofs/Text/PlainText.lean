import QueryPrep.Inline.Envelope
import QueryPrep.Proofs.Text.SelfDelimiting
import QueryPrep.Text.ControlSequence

/-!
# Texts that pass unchanged

A stream that leads to no terminal loses the control sequences of a text. Each of them starts with
an escape character, so a text without such characters passes as it is. A JSON object is one of
these, because its strings hold no control characters.
-/

namespace QueryPrep.Text

/-- A text without escape characters. -/
def Plain (text : String) : Prop :=
  '\x1b' ∉ text.toList

instance (text : String) : Decidable (Plain text) :=
  inferInstanceAs (Decidable ('\x1b' ∉ text.toList))

section Texts

variable {text other separator : String} {texts : List String}

theorem Plain.plainText_eq (plain : Plain text) : plainText text = text := by
  rw [plainText, withoutControlSequences_eq_self plain, String.ofList_toList]

theorem Plain.append (plain : Plain text) (otherPlain : Plain other) : Plain (text ++ other) := by
  rw [Plain, String.toList_append, List.mem_append, not_or]
  exact ⟨plain, otherPlain⟩

theorem Plain.intercalate (plain : Plain separator) (each : ∀ text ∈ texts, Plain text) :
    Plain (String.intercalate separator texts) := by
  induction texts with
  | nil => exact List.not_mem_nil
  | cons first rest ih =>
      have firstPlain := each first List.mem_cons_self
      have restPlain := ih fun text member => each text (List.mem_cons_of_mem _ member)
      by_cases last : rest = []
      · rw [last, String.intercalate_singleton]
        exact firstPlain
      · rw [String.intercalate_cons_of_ne_nil last]
        exact (firstPlain.append plain).append restPlain

end Texts

namespace JsonObject

theorem not_mem_unitEscape (unit : Nat) : '\x1b' ∉ style.unitEscape unit := by
  have digits : ∀ value, '\x1b' ≠ style.digit value :=
    fun value => (Nat.digitChar_ne '\x1b' (by decide)).symm
  simp [QuoteStyle.unitEscape, digits]

theorem not_mem_escape (character : Char) : '\x1b' ∉ style.escape character := by
  unfold QuoteStyle.escape
  split
  case h_1 letter short =>
    have visible : ∀ pair ∈ shortEscapes, '\x1b' ∉ ['\\', pair.2] := by decide
    exact visible _ (mem_shortEscapes short)
  case h_2 =>
    split
    case isTrue =>
      intro member
      rcases List.mem_flatMap.mp member with ⟨unit, _, within⟩
      exact not_mem_unitEscape unit within
    case isFalse printable =>
      intro member
      apply printable
      rw [← List.mem_singleton.mp member]
      decide

theorem plain_string (text : String) : Plain (string text) := by
  rw [Plain, string, QuoteStyle.quote, String.toList_ofList, QuoteStyle.quoteChars]
  intro member
  simp only [List.cons_append, List.mem_cons, Char.reduceEq, List.mem_append, List.mem_flatMap,
    List.not_mem_nil, or_false, false_or] at member
  rcases member with ⟨character, _, within⟩
  exact not_mem_escape character within

theorem plain_boolean (value : Bool) : Plain (boolean value) := by
  cases value <;> decide

theorem plain_render {members : List (String × String)}
    (each : ∀ member ∈ members, Plain member.2) : Plain (render members) := by
  have lines : ∀ line ∈ members.map renderMember, Plain line := by
    intro line inLines
    rcases List.mem_map.mp inLines with ⟨member, inMembers, rfl⟩
    have name := plain_string member.1
    exact ((Plain.append (by decide) name).append (by decide)).append (each member inMembers)
  have separator : Plain ",\n" := by decide
  have separated := separator.intercalate lines
  exact (Plain.append (by decide) separated).append (by decide)

end JsonObject

end QueryPrep.Text

namespace QueryPrep.Inline

open QueryPrep.Text

theorem Envelope.plain_toJson (envelope : Envelope) : Plain envelope.toJson := by
  have members : ∀ name value, ∀ entry ∈ member name value, Plain entry.2 := by
    intro name value entry inMember
    rcases value with _ | text
    · cases inMember
    · rw [List.mem_singleton.mp inMember]
      exact JsonObject.plain_string text
  apply JsonObject.plain_render
  intro entry inEntries
  rcases List.mem_cons.mp inEntries with rfl | later
  · exact JsonObject.plain_boolean envelope.success
  · rcases List.mem_append.mp later with inResult | inError
    · exact members _ _ entry inResult
    · exact members _ _ entry inError

end QueryPrep.Inline
