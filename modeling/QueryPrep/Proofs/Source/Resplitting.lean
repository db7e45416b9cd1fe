import QueryPrep.Proofs.Source.Standalone
import Mathlib.Data.List.Infix

/-!
# Splitting what was joined

Definitions that stand alone may be joined with any text between them in which there is no keyword.
Splitting the whole then gives the same definitions again. A gap cannot form a keyword together
with the definition after it, since the first letter of a keyword occurs in none of them again.

A scanner passes such a text piece by piece. It stands behind it in the end and looks for a keyword,
whatever comes next, as long as no keyword reaches from the text into what comes next.
-/

namespace QueryPrep.Source

open QueryPrep.Graphql QueryPrep.Text Scanner

/-- There is no keyword in the text. -/
def KeywordFree (text : List Char) : Prop :=
  ∀ kind : DefinitionKind, ¬ kind.keyword.toList <:+: text

/-- A text that ends, or goes on with a keyword. -/
def EndsOrOpens (text : List Char) : Prop :=
  text = [] ∨ ∃ kind : DefinitionKind, kind.keyword.toList <+: text

/-- A keyword begins in the first text and ends in the second. -/
def Straddled (first second : List Char) : Prop :=
  ∃ (kind : DefinitionKind) (ending beginning : List Char),
    kind.keyword.toList = ending ++ beginning ∧ ending ≠ [] ∧ beginning ≠ [] ∧
      ending <:+ first ∧ beginning <+: second

section Keywords

variable {text first second longer : List Char}

theorem keywordFree_iff :
    KeywordFree text ↔ ∀ kind ∈ DefinitionKind.all, ∀ tail ∈ text.tails,
      kind.keyword.toList.isPrefixOf tail = false := by
  constructor
  · intro free kind _ tail isTail
    apply Bool.eq_false_iff.mpr
    intro opens
    apply free kind
    have isSuffix := (List.mem_tails _ _).mp isTail
    exact (List.isPrefixOf_iff_prefix.mp opens).isInfix.trans isSuffix.isInfix
  · intro free kind occurs
    rcases List.infix_iff_prefix_suffix.mp occurs with ⟨tail, opens, isTail⟩
    have closed := free kind (by cases kind <;> simp [DefinitionKind.all]) tail
      ((List.mem_tails _ _).mpr isTail)
    rw [List.isPrefixOf_iff_prefix.mpr opens] at closed
    cases closed

instance (text : List Char) : Decidable (KeywordFree text) :=
  decidable_of_iff _ keywordFree_iff.symm

theorem KeywordFree.of_cons {letter : Char} (free : KeywordFree (letter :: text)) :
    KeywordFree text :=
  fun kind within => free kind (within.trans (List.suffix_cons letter text).isInfix)

/-- The first letter of a keyword is none of the later letters of any keyword. -/
theorem not_mem_tail_of_head {kind other : DefinitionKind} {letter : Char}
    (first : other.keyword.toList.head? = some letter) : letter ∉ kind.keyword.toList.tail := by
  cases other with
  | query =>
      obtain rfl : 'q' = letter := Option.some.inj first
      cases kind <;> decide
  | fragment =>
      obtain rfl : 'f' = letter := Option.some.inj first
      cases kind <;> decide

theorem Straddled.of_suffix (straddled : Straddled first second) (shorter : first <:+ longer) :
    Straddled longer second := by
  rcases straddled with ⟨kind, ending, beginning, split, started, unfinished, ends, begins⟩
  exact ⟨kind, ending, beginning, split, started, unfinished, ends.trans shorter, begins⟩

theorem not_straddled_of_cons {letter : Char} (apart : ¬ Straddled (letter :: first) second) :
    ¬ Straddled first second :=
  fun straddled => apart (straddled.of_suffix (List.suffix_cons letter first))

theorem not_straddled_of_append (apart : ¬ Straddled (text ++ first) second) :
    ¬ Straddled first second :=
  fun straddled => apart (straddled.of_suffix (List.suffix_append text first))

/-- No keyword reaches into a text that does not begin with one of its later letters. -/
theorem not_straddled_of_head
    (foreign : ∀ letter ∈ second.head?, ∀ kind : DefinitionKind,
      letter ∉ kind.keyword.toList.tail) : ¬ Straddled first second := by
  rintro ⟨kind, ending, beginning, split, started, unfinished, _, begins⟩
  rcases List.exists_cons_of_ne_nil unfinished with ⟨letter, letters, rfl⟩
  rcases begins with ⟨rest, rfl⟩
  apply foreign letter rfl kind
  rw [split, List.tail_append_of_ne_nil started]
  exact List.mem_append_right _ List.mem_cons_self

theorem not_straddled_of_endsOrOpens (next : EndsOrOpens second) : ¬ Straddled first second := by
  apply not_straddled_of_head
  intro letter begins kind
  rcases next with rfl | ⟨other, rest, rfl⟩
  · cases begins
  · rw [List.head?_append_of_ne_nil _ other.keyword_ne_nil] at begins
    exact not_mem_tail_of_head begins

/-- Where there was no keyword, none begins because of what comes next. -/
theorem KeywordFree.opening?_append (free : KeywordFree first) (more : first ≠ [])
    (apart : ¬ Straddled first second) : DefinitionKind.opening? (first ++ second) = none := by
  rw [DefinitionKind.opening?_eq_none_iff]
  intro kind opens
  rcases List.prefix_or_prefix_of_prefix opens (List.prefix_append first second) with
    within | beyond
  · exact free kind within.isInfix
  · -- The keyword begins with the whole text and would end in what comes next.
    rcases beyond with ⟨beginning, split⟩
    rw [← split, List.prefix_append_right_inj] at opens
    by_cases finished : beginning = []
    · subst beginning
      rw [List.append_nil] at split
      exact free kind (split ▸ List.infix_refl first)
    · exact apart ⟨kind, first, beginning, split.symm, more, finished, List.suffix_refl _, opens⟩

end Keywords

namespace Scanner

/-- The scanner gets past a text, finds definitions in it, and looks for a keyword behind it. -/
structure Passes (scanner behind : Scanner) (text : List Char)
    (definitions : List RawDefinition) : Prop where
  run_eq : run scanner = run behind
  scanning : behind.state = .scanning
  ahead : behind.ahead = scanner.ahead.drop text.length
  index : behind.index = scanner.index + text.length
  found : behind.definitions = scanner.definitions ++ definitions

variable {scanner middle behind : Scanner} {text later gap rest : List Char}
variable {definitions others : List RawDefinition}

theorem Passes.refl (scanning : scanner.state = .scanning) : Passes scanner scanner [] [] :=
  ⟨rfl, scanning, rfl, rfl, (List.append_nil _).symm⟩

theorem Passes.trans (before : Passes scanner middle text definitions)
    (after : Passes middle behind later others) :
    Passes scanner behind (text ++ later) (definitions ++ others) where
  run_eq := before.run_eq.trans after.run_eq
  scanning := after.scanning
  ahead := by rw [after.ahead, before.ahead, List.drop_drop, List.length_append]
  index := by rw [after.index, before.index, List.length_append, Nat.add_assoc]
  found := by rw [after.found, before.found, List.append_assoc]

theorem Passes.ahead_eq (passes : Passes scanner behind text definitions)
    (split : scanner.ahead = text ++ rest) : behind.ahead = rest := by
  rw [passes.ahead, split, List.drop_left]

theorem passes_one {letter : Char} (scanning : scanner.state = .scanning)
    (split : scanner.ahead = letter :: rest)
    (none : DefinitionKind.opening? (letter :: rest) = none) :
    Passes scanner (scanner.pass 1) [letter] [] where
  run_eq := run_pass_one scanning (by simp [split]) (split ▸ none)
  scanning := scanning
  ahead := rfl
  index := rfl
  found := (List.append_nil _).symm

theorem passes_definition {definition : RawDefinition} {blanks header inner : List Char}
    (scanning : scanner.state = .scanning)
    (split : scanner.ahead = definition.content.toList ++ rest)
    (layout : LaidOut definition blanks header inner) :
    Passes scanner (scanner.collected definition) definition.content.toList [definition] where
  run_eq := run_of_definition scanning split layout
  scanning := rfl
  ahead := rfl
  index := rfl
  found := rfl

/-- A gap is passed one letter after the other. -/
theorem exists_passes_gap (scanning : scanner.state = .scanning) (free : KeywordFree gap)
    (split : scanner.ahead = gap ++ rest) (apart : ¬ Straddled gap rest) :
    ∃ behind, Passes scanner behind gap [] := by
  induction gap generalizing scanner with
  | nil => exact ⟨scanner, .refl scanning⟩
  | cons letter gap ih =>
      have none := free.opening?_append (List.cons_ne_nil letter gap) apart
      have first := passes_one scanning split none
      have later := first.ahead_eq split
      rcases ih first.scanning free.of_cons later (not_straddled_of_cons apart) with
        ⟨behind, others⟩
      exact ⟨behind, first.trans others⟩

end Scanner

/-- The text consists of the definitions, each of which stands alone, with gaps around them. -/
inductive Interleaves : List Char → List RawDefinition → Prop
  | gap {gap : List Char} (free : KeywordFree gap) : Interleaves gap []
  | definition {gap rest : List Char} {definition : RawDefinition}
      {definitions : List RawDefinition} (free : KeywordFree gap)
      (standalone : Standalone definition) (later : Interleaves rest definitions) :
      Interleaves (gap ++ (definition.content.toList ++ rest)) (definition :: definitions)

theorem Interleaves.exists_passes {scanner : Scanner} {text rest : List Char}
    {definitions : List RawDefinition} (interleaves : Interleaves text definitions)
    (scanning : scanner.state = .scanning) (split : scanner.ahead = text ++ rest)
    (apart : ¬ Straddled text rest) : ∃ behind, Passes scanner behind text definitions := by
  induction interleaves generalizing scanner with
  | gap free => exact exists_passes_gap scanning free split apart
  | @definition gap later definition definitions free standalone interleaves ih =>
      rw [List.append_assoc, List.append_assoc] at split
      have opens := standalone.opens (later ++ rest)
      rcases exists_passes_gap scanning free split
        (not_straddled_of_endsOrOpens (.inr ⟨_, opens⟩)) with ⟨place, overGap⟩
      have atDefinition := overGap.ahead_eq split
      rcases standalone with ⟨blanks, header, inner, layout⟩
      have overDefinition := passes_definition overGap.scanning atDefinition layout
      have laterApart := not_straddled_of_append (not_straddled_of_append apart)
      rcases ih overDefinition.scanning (overDefinition.ahead_eq atDefinition) laterApart with
        ⟨behind, overRest⟩
      exact ⟨behind, overGap.trans (overDefinition.trans overRest)⟩

theorem outcome_of_interleaves {scanner : Scanner} {text : List Char}
    {definitions : List RawDefinition} (interleaves : Interleaves text definitions)
    (scanning : scanner.state = .scanning) (ahead : scanner.ahead = text) :
    outcome scanner = (scanner.definitions ++ definitions, none) := by
  have split : scanner.ahead = text ++ [] := by rw [ahead, List.append_nil]
  rcases interleaves.exists_passes scanning split (not_straddled_of_endsOrOpens (.inl rfl)) with
    ⟨behind, passes⟩
  have done := passes.ahead_eq split
  rw [outcome_congr passes.run_eq, outcome_of_ahead_eq_nil done, conclude, passes.scanning,
    ← passes.found]

theorem splitDefinitions_eq_ok_iff {text : String} {definitions : List RawDefinition} :
    splitDefinitions text = .ok definitions ↔ (ofText text).outcome = (definitions, none) := by
  rw [splitDefinitions, outcome]
  cases split (ofText text) <;> simp

/-- Splitting a text into definitions and joining them is undone by splitting again. -/
theorem splitDefinitions_of_interleaves {text : String} {definitions : List RawDefinition}
    (interleaves : Interleaves text.toList definitions) :
    splitDefinitions text = .ok definitions := by
  have scanning : (ofText text).state = .scanning := rfl
  exact splitDefinitions_eq_ok_iff.mpr (outcome_of_interleaves interleaves scanning rfl)

theorem standalone_of_splitDefinitions {text : String} {definitions : List RawDefinition}
    (split : splitDefinitions text = .ok definitions) :
    ∀ definition ∈ definitions, Standalone definition := by
  have scanning : (ofText text).state = .scanning := rfl
  have found := standalone_of_mem_outcome scanning (by simp [ofText])
  rwa [splitDefinitions_eq_ok_iff.mp split] at found

section Joining

variable {gaps : List String} {definitions : List RawDefinition} {text : String}

/-- The texts of definitions with a gap before each of them and another gap behind the last. -/
def joinWith : (gaps : List String) → (definitions : List RawDefinition) → String
  | [], _ => ""
  | gap :: _, [] => gap
  | gap :: gaps, definition :: definitions =>
      gap ++ definition.content ++ joinWith gaps definitions

theorem interleaves_joinWith (standalone : ∀ definition ∈ definitions, Standalone definition)
    (count : gaps.length = definitions.length + 1) (free : ∀ gap ∈ gaps, KeywordFree gap.toList) :
    Interleaves (joinWith gaps definitions).toList definitions := by
  induction definitions generalizing gaps with
  | nil =>
      rcases List.length_eq_one_iff.mp count with ⟨gap, rfl⟩
      exact .gap (free gap List.mem_cons_self)
  | cons definition others ih =>
      rcases List.exists_cons_of_length_eq_add_one count with ⟨gap, later, rfl⟩
      rw [List.forall_mem_cons] at standalone free
      have rest := ih standalone.2 (Nat.add_right_cancel count) free.2
      rw [joinWith, String.toList_append, String.toList_append, List.append_assoc]
      exact .definition free.1 standalone.1 rest

/--
What a text was split into may be joined again with any gaps that hold no keyword. Splitting gives
the same definitions, whatever braces, quotes and beginnings of keywords the gaps hold.
-/
theorem splitDefinitions_joinWith (split : splitDefinitions text = .ok definitions)
    (count : gaps.length = definitions.length + 1) (free : ∀ gap ∈ gaps, KeywordFree gap.toList) :
    splitDefinitions (joinWith gaps definitions) = .ok definitions := by
  apply splitDefinitions_of_interleaves
  exact interleaves_joinWith (standalone_of_splitDefinitions split) count free

/-- The definitions hold keywords, braces and marks of a template themselves. -/
def menuText : String :=
  "query Menu \x7b fragment of \x7b query \x7d \x7d\x7d fragment Dish_menu on Dish \x7b `name` \x7d"

def menuDefinitions : List RawDefinition :=
  [⟨.query, "Menu", "query Menu \x7b fragment of \x7b query \x7d \x7d"⟩,
    ⟨.fragment, "Dish_menu", "fragment Dish_menu on Dish \x7b `name` \x7d"⟩]

/-- Gaps with stray braces, a quote, and beginnings and ends of keywords. -/
def menuGaps : List String :=
  ["\x7d quer", "y \x7b \" ", "ment frag"]

theorem splitDefinitions_menuText :
    splitDefinitions menuText = .ok menuDefinitions ∧
      splitDefinitions (joinWith menuGaps menuDefinitions) = .ok menuDefinitions := by
  have split : splitDefinitions menuText = .ok menuDefinitions := by decide +kernel
  have free : ∀ gap ∈ menuGaps, KeywordFree gap.toList := by decide +kernel
  exact ⟨split, splitDefinitions_joinWith split rfl free⟩

end Joining

end QueryPrep.Source
