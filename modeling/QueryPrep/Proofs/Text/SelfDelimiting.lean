import QueryPrep.Text.Quoted
import Mathlib.Data.List.Basic

/-!
# Written forms that end by themselves

A written form ends by itself if it says where it stops, whatever text stands behind it. Two texts
that begin with such forms are then equal only if the forms are of the same value and the texts
behind them agree. So such forms can be put together, with brackets and separators or one after the
other, and the whole still ends by itself.

Quoted text is of this kind for every style whose digits differ from each other. A character beyond
the basic plane needs a look at its second escape as well: the first one alone says that there is a
second, because its code unit is no character of its own.
-/

namespace QueryPrep.Text

universe u

variable {Item : Type u}

/-- No other value is written in a way that this one could be taken for, or for the start of. -/
def SelfDelimiting (write : Item → List Char) (item : Item) : Prop :=
  ∀ other rest following, write item ++ rest = write other ++ following →
    item = other ∧ rest = following

/-- Every value is written with a first character, and it is not the given one. -/
def NeverOpensWith (write : Item → List Char) (character : Char) : Prop :=
  ∀ item rest following, write item ++ rest ≠ character :: following

namespace SelfDelimiting

variable {write : Item → List Char} {item : Item} {items : List Item} {separator closing : Char}

theorem eq_of_write_eq (delimited : SelfDelimiting write item) {other : Item}
    (same : write item = write other) : item = other :=
  (delimited other [] [] (by rw [same])).1

theorem opened (opening : Char) (delimited : SelfDelimiting write item) :
    SelfDelimiting (fun item => opening :: write item) item := by
  intro other rest following same
  exact delimited other rest following (List.cons.inj same).2

/-- Forms one after the other, with a character at the end that opens none of them. -/
theorem terminated (each : ∀ item ∈ items, SelfDelimiting write item)
    (unlike : NeverOpensWith write closing) :
    SelfDelimiting (fun items => items.flatMap write ++ [closing]) items := by
  induction items with
  | nil =>
      intro others rest following same
      cases others with
      | nil => exact ⟨rfl, (List.cons.inj same).2⟩
      | cons other others =>
          simp only [List.flatMap_cons, List.append_assoc] at same
          exact absurd same.symm (unlike other _ _)
  | cons item items ih =>
      intro others rest following same
      cases others with
      | nil =>
          simp only [List.flatMap_cons, List.append_assoc] at same
          exact absurd same (unlike item _ _)
      | cons other others =>
          rcases List.forall_mem_cons.mp each with ⟨itemDelimited, itemsDelimited⟩
          simp only [List.flatMap_cons, List.append_assoc] at same
          rcases itemDelimited _ _ _ same with ⟨rfl, sameTail⟩
          rcases ih itemsDelimited others rest following (by simpa using sameTail) with
            ⟨rfl, sameRest⟩
          exact ⟨rfl, sameRest⟩

theorem intercalate_cons (separator : Char) (first : List Char) (others : List (List Char)) :
    [separator].intercalate (first :: others) = first ++ others.flatMap (separator :: ·) := by
  induction others generalizing first with
  | nil => simp [List.intercalate]
  | cons second others ih => simp [List.intercalate_cons_cons, ih]

/-- Forms with separators between them, and another character at the end. -/
theorem separated (each : ∀ item ∈ items, SelfDelimiting write item)
    (unlike : NeverOpensWith write closing) (differs : separator ≠ closing) :
    SelfDelimiting (fun items => [separator].intercalate (items.map write) ++ [closing])
      items := by
  have unlikeSeparated : NeverOpensWith (fun item => separator :: write item) closing :=
    fun _ _ _ same => differs (List.cons.inj same).1
  intro others rest following same
  cases items with
  | nil =>
      cases others with
      | nil => exact ⟨rfl, (List.cons.inj same).2⟩
      | cons other others =>
          simp only [List.map_cons, intercalate_cons, List.append_assoc] at same
          exact absurd same.symm (unlike other _ _)
  | cons item items =>
      cases others with
      | nil =>
          simp only [List.map_cons, intercalate_cons, List.append_assoc] at same
          exact absurd same (unlike item _ _)
      | cons other others =>
          rcases List.forall_mem_cons.mp each with ⟨itemDelimited, itemsDelimited⟩
          simp only [List.map_cons, intercalate_cons, List.flatMap_map, List.append_assoc] at same
          rcases itemDelimited _ _ _ same with ⟨rfl, sameTail⟩
          -- Past the first form, every separator opens the form behind it.
          have tails := terminated
            (fun item member => (itemsDelimited item member).opened separator) unlikeSeparated
          rcases tails others rest following (by simpa using sameTail) with ⟨rfl, sameRest⟩
          exact ⟨rfl, sameRest⟩

end SelfDelimiting

section Escapes

/-- The characters that have a short escape, and the letters of these. -/
def shortEscapes : List (Char × Char) :=
  [('"', '"'), ('\\', '\\'), ('\x08', 'b'), ('\t', 't'), ('\n', 'n'), ('\x0c', 'f'), ('\r', 'r')]

theorem mem_shortEscapes {character letter : Char}
    (short : shortEscape? character = some letter) : (character, letter) ∈ shortEscapes := by
  revert short
  fun_cases shortEscape? character <;> simp [shortEscapes]
  all_goals
    rintro rfl
    simp

theorem eq_of_shortEscape? {character other letter : Char}
    (short : shortEscape? character = some letter) (otherShort : shortEscape? other = some letter) :
    character = other := by
  have distinct : ∀ first ∈ shortEscapes, ∀ second ∈ shortEscapes,
      first.2 = second.2 → first.1 = second.1 := by decide
  exact distinct _ (mem_shortEscapes short) _ (mem_shortEscapes otherShort) rfl

theorem ne_u_of_shortEscape? {character letter : Char}
    (short : shortEscape? character = some letter) : letter ≠ 'u' := by
  have unlike : ∀ pair ∈ shortEscapes, pair.2 ≠ 'u' := by decide
  exact unlike _ (mem_shortEscapes short)

theorem ne_of_shortEscape?_eq_none {character : Char} (none : shortEscape? character = none) :
    character ≠ '"' ∧ character ≠ '\\' := by
  constructor
  all_goals
    rintro rfl
    simp [shortEscape?] at none

namespace QuoteStyle

/-- Hexadecimal digits of different values are different characters. -/
def DigitsDiffer (style : QuoteStyle) : Prop :=
  ∀ first < 16, ∀ second < 16, style.digit first = style.digit second → first = second

variable {style : QuoteStyle} {rest following : List Char}

theorem unitEscape_append_inj (digits : style.DigitsDiffer) {unit other : Nat}
    (bounded : unit < 0x10000) (otherBounded : other < 0x10000)
    (same : style.unitEscape unit ++ rest = style.unitEscape other ++ following) :
    unit = other ∧ rest = following := by
  simp only [unitEscape, List.map_cons, List.map_nil, List.cons_append, List.nil_append,
    List.cons.injEq, true_and] at same
  rcases same with ⟨first, second, third, fourth, sameRest⟩
  have sameFirst := digits _ (Nat.mod_lt _ (by decide)) _ (Nat.mod_lt _ (by decide)) first
  have sameSecond := digits _ (Nat.mod_lt _ (by decide)) _ (Nat.mod_lt _ (by decide)) second
  have sameThird := digits _ (Nat.mod_lt _ (by decide)) _ (Nat.mod_lt _ (by decide)) third
  have sameFourth := digits _ (Nat.mod_lt _ (by decide)) _ (Nat.mod_lt _ (by decide)) fourth
  refine ⟨?_, sameRest⟩
  omega

end QuoteStyle

theorem utf16Units_cases (character : Char) :
    (utf16Units character = [character.toNat] ∧ character.toNat < 0x10000 ∧
      (character.toNat < 0xD800 ∨ 0xDFFF < character.toNat)) ∨
    ∃ offset < 0x100000, character.toNat = 0x10000 + offset ∧
      utf16Units character = [0xD800 + offset / 0x400, 0xDC00 + offset % 0x400] := by
  have scalar : character.toNat < 0xD800 ∨
      0xDFFF < character.toNat ∧ character.toNat < 0x110000 := character.valid
  by_cases basic : character.toNat < 0x10000
  · refine .inl ⟨by simp [utf16Units, basic], basic, ?_⟩
    exact scalar.imp_right And.left
  · refine .inr ⟨character.toNat - 0x10000, by omega, by omega, ?_⟩
    simp [utf16Units, basic]

namespace QuoteStyle

variable {style : QuoteStyle}

theorem selfDelimiting_numeric (digits : style.DigitsDiffer) (character : Char) :
    SelfDelimiting (fun character => (utf16Units character).flatMap style.unitEscape)
      character := by
  intro other rest following same
  rcases utf16Units_cases character with ⟨units, basic, scalar⟩ | ⟨offset, bound, code, units⟩ <;>
    rcases utf16Units_cases other with
      ⟨otherUnits, otherBasic, otherScalar⟩ | ⟨otherOffset, otherBound, otherCode, otherUnits⟩ <;>
    simp only [units, otherUnits, List.flatMap_cons, List.flatMap_nil, List.append_nil,
      List.append_assoc] at same
  · rcases unitEscape_append_inj digits basic otherBasic same with ⟨sameUnit, sameRest⟩
    exact ⟨Char.toNat_inj.mp sameUnit, sameRest⟩
  -- A high surrogate is no character, so one escape is never taken for the first of two.
  · have sameUnit := (unitEscape_append_inj digits basic (by omega) same).1
    omega
  · have sameUnit := (unitEscape_append_inj digits (by omega) otherBasic same).1
    omega
  · rcases unitEscape_append_inj digits (by omega) (by omega) same with ⟨sameHigh, sameTail⟩
    rcases unitEscape_append_inj digits (by omega) (by omega) sameTail with ⟨sameLow, sameRest⟩
    exact ⟨Char.toNat_inj.mp (by omega), sameRest⟩

/-- The three ways of writing a character, told apart by the first two characters. -/
theorem escape_cases (style : QuoteStyle) (character : Char) :
    (∃ letter ≠ 'u', shortEscape? character = some letter ∧
      style.escape character = ['\\', letter]) ∨
    (∃ tail, style.escape character = (utf16Units character).flatMap style.unitEscape ∧
      style.escape character = '\\' :: 'u' :: tail) ∨
    (character ≠ '"' ∧ character ≠ '\\' ∧ style.escape character = [character]) := by
  cases short : shortEscape? character with
  | some letter =>
      exact .inl ⟨letter, ne_u_of_shortEscape? short, rfl, by simp [escape, short]⟩
  | none =>
      by_cases numeric : style.numeric character = true
      · have escaped : style.escape character =
            (utf16Units character).flatMap style.unitEscape := by
          simp [escape, short, numeric]
        rw [escaped]
        rcases utf16Units_cases character with ⟨units, _⟩ | ⟨offset, _, _, units⟩ <;>
          exact .inr (.inl ⟨_, rfl, by rw [units, List.flatMap_cons, unitEscape]; rfl⟩)
      · have unlike := ne_of_shortEscape?_eq_none short
        exact .inr (.inr ⟨unlike.1, unlike.2, by simp [escape, short, numeric]⟩)

theorem neverOpensWith_escape (style : QuoteStyle) : NeverOpensWith style.escape '"' := by
  intro character rest following same
  rcases style.escape_cases character with ⟨letter, _, _, written⟩ | ⟨tail, _, written⟩ |
    ⟨unlike, _, written⟩
  · simp [written] at same
  · simp [written] at same
  · simp [written, unlike] at same

theorem selfDelimiting_escape (digits : style.DigitsDiffer) (character : Char) :
    SelfDelimiting style.escape character := by
  intro other rest following same
  rcases style.escape_cases character with ⟨letter, unlike, short, written⟩ |
      ⟨tail, numeric, written⟩ | ⟨_, plain, written⟩ <;>
    rcases style.escape_cases other with ⟨otherLetter, otherUnlike, otherShort, otherWritten⟩ |
      ⟨otherTail, otherNumeric, otherWritten⟩ | ⟨_, otherPlain, otherWritten⟩
  case inl.inl =>
    simp only [written, otherWritten, List.cons_append, List.nil_append, List.cons.injEq,
      true_and] at same
    rcases same with ⟨rfl, sameRest⟩
    exact ⟨eq_of_shortEscape? short otherShort, sameRest⟩
  case inr.inl.inr.inl =>
    rw [numeric, otherNumeric] at same
    exact selfDelimiting_numeric digits character other rest following same
  case inr.inr.inr.inr =>
    simpa [written, otherWritten] using same
  -- Two different ways of writing part at the first character or at the second.
  all_goals
    simp only [written, otherWritten, List.cons_append, List.nil_append, List.cons.injEq] at same
    grind

end QuoteStyle

end Escapes

namespace QuoteStyle

variable {style : QuoteStyle}

/-- Quoted text ends by itself, whatever the text is. -/
theorem selfDelimiting_quoteChars (digits : style.DigitsDiffer) (text : List Char) :
    SelfDelimiting style.quoteChars text := by
  have body : SelfDelimiting (fun text => text.flatMap style.escape ++ ['"']) text :=
    .terminated (fun character _ => selfDelimiting_escape digits character)
      style.neverOpensWith_escape
  exact body.opened '"'

end QuoteStyle

end QueryPrep.Text
