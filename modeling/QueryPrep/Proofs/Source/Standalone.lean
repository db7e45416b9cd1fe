import QueryPrep.Proofs.Source.Scanning
import Mathlib.Data.List.Basic

/-!
# Definitions that stand alone

The text of a definition tells where it ends: its name ends before a character that belongs to no
name, its header at the first opening brace, and its body where the braces balance for the first
time. So nothing behind the text of a definition changes what a scanner makes of it.

What lies ahead of a scanner has one of six shapes, and for each of them it is said here what the
scanner comes to. Only one of the shapes adds a definition, and that definition stands alone.
-/

namespace QueryPrep.Source

open QueryPrep.Graphql QueryPrep.Text

namespace Scanner

section Bodies

variable {depth : Int} {offset : Nat} {text : List Char}

/-- What a character adds to the number of open braces. -/
def depthChange (character : Char) : Int :=
  if character = '\x7b' then 1 else if character = '\x7d' then -1 else 0

theorem closingOffset?_cons (depth : Int) (character : Char) (rest : List Char) :
    closingOffset? depth (character :: rest) =
      if character = '\x7d' ∧ depth = 1 then some 0
      else (closingOffset? (depth + depthChange character) rest).map (· + 1) := by
  by_cases opens : character = '\x7b'
  · simp [closingOffset?, depthChange, opens]
  by_cases closes : character = '\x7d'
  · simp [closingOffset?, depthChange, closes, Int.sub_eq_add_neg]
  · simp [closingOffset?, depthChange, opens, closes]

theorem closingOffset?_append (more : List Char)
    (closes : closingOffset? depth text = some offset) :
    closingOffset? depth (text ++ more) = some offset := by
  -- The depth changes from one character to the next, so it is general in the induction.
  induction text generalizing depth offset with
  | nil => cases closes
  | cons character rest ih =>
      rw [List.cons_append]
      rw [closingOffset?_cons] at closes ⊢
      by_cases last : character = '\x7d' ∧ depth = 1
      · rwa [if_pos last] at closes ⊢
      · rw [if_neg last, Option.map_eq_some_iff] at closes
        rcases closes with ⟨before, closes, rfl⟩
        rw [if_neg last, ih closes]
        rfl

/-- A body that ends within a text is a body by itself. -/
theorem exists_body_of_closingOffset? (closes : closingOffset? depth text = some offset) :
    ∃ body rest, text = body ++ rest ∧ body.length = offset + 1 ∧
      closingOffset? depth body = some offset := by
  induction text generalizing depth offset with
  | nil => cases closes
  | cons character rest ih =>
      rw [closingOffset?_cons] at closes
      by_cases last : character = '\x7d' ∧ depth = 1
      · rw [if_pos last, Option.some.injEq] at closes
        subst offset
        refine ⟨[character], rest, rfl, rfl, ?_⟩
        rw [closingOffset?_cons, if_pos last]
      · rw [if_neg last, Option.map_eq_some_iff] at closes
        rcases closes with ⟨before, closes, rfl⟩
        rcases ih closes with ⟨body, behind, rfl, length, closes⟩
        refine ⟨character :: body, behind, rfl, by rw [List.length_cons, length], ?_⟩
        rw [closingOffset?_cons, if_neg last, closes]
        rfl

end Bodies

section Names

variable {ahead blanks name rest : List Char}

/-- Where a name ends does not depend on what comes later. -/
theorem nameAhead_append_iff (more : List Char) (known : rest ≠ []) :
    NameAhead (ahead ++ more) blanks name (rest ++ more) ↔ NameAhead ahead blanks name rest := by
  have sameHead : (rest ++ more).head? = rest.head? := List.head?_append_of_ne_nil rest known
  have sameNext : (name ++ (rest ++ more)).head? = (name ++ rest).head? := by
    rw [← List.append_assoc]
    exact List.head?_append_of_ne_nil _ (List.append_ne_nil_of_right_ne_nil name known)
  have sameSplit : ahead ++ more = blanks ++ (name ++ (rest ++ more)) ↔
      ahead = blanks ++ (name ++ rest) := by
    rw [← List.append_assoc name, ← List.append_assoc blanks, List.append_cancel_right_eq]
  constructor
  · rintro ⟨split, blank, visible, nameLike, maximal⟩
    exact ⟨sameSplit.mp split, blank, sameNext ▸ visible, nameLike, sameHead ▸ maximal⟩
  · rintro ⟨split, blank, visible, nameLike, maximal⟩
    exact ⟨sameSplit.mpr split, blank, sameNext ▸ visible, nameLike, sameHead ▸ maximal⟩

end Names

end Scanner

/-- The parts of a definition's text, from the keyword to the closing brace. -/
structure LaidOut (definition : RawDefinition) (blanks header inner : List Char) : Prop where
  content_eq : definition.content.toList =
    definition.kind.keyword.toList ++
      (blanks ++ (definition.name.toList ++ (header ++ '\x7b' :: inner)))
  named : Scanner.NameAhead (blanks ++ (definition.name.toList ++ (header ++ '\x7b' :: inner)))
    blanks definition.name.toList (header ++ '\x7b' :: inner)
  present : definition.name.toList ≠ []
  noBrace : '\x7b' ∉ header
  closes : Scanner.closingOffset? 0 ('\x7b' :: inner) = some inner.length

/-- The text of the definition is one that a scanner takes for this definition. -/
def Standalone (definition : RawDefinition) : Prop :=
  ∃ blanks header inner, LaidOut definition blanks header inner

section Layouts

variable {definition : RawDefinition} {blanks header inner : List Char}

theorem LaidOut.length_content (layout : LaidOut definition blanks header inner) :
    definition.content.toList.length = definition.kind.keyword.length + blanks.length +
      definition.name.toList.length + header.length + inner.length + 1 := by
  rw [layout.content_eq]
  simp only [List.length_append, List.length_cons, String.length_toList]
  omega

theorem LaidOut.content_append (layout : LaidOut definition blanks header inner)
    (rest : List Char) :
    definition.content.toList ++ rest = definition.kind.keyword.toList ++
      (blanks ++ (definition.name.toList ++ (header ++ '\x7b' :: (inner ++ rest)))) := by
  rw [layout.content_eq]
  simp only [List.append_assoc, List.cons_append]

theorem LaidOut.named_append (layout : LaidOut definition blanks header inner)
    (rest : List Char) :
    Scanner.NameAhead
      (blanks ++ (definition.name.toList ++ (header ++ '\x7b' :: (inner ++ rest)))) blanks
      definition.name.toList (header ++ '\x7b' :: (inner ++ rest)) := by
  have known : header ++ '\x7b' :: inner ≠ [] := by simp
  have named := (Scanner.nameAhead_append_iff rest known).mpr layout.named
  simpa only [List.append_assoc, List.cons_append] using named

theorem LaidOut.closes_append (layout : LaidOut definition blanks header inner)
    (rest : List Char) :
    Scanner.closingOffset? 0 ('\x7b' :: (inner ++ rest)) = some inner.length :=
  Scanner.closingOffset?_append rest layout.closes

theorem Standalone.opens (standalone : Standalone definition) (rest : List Char) :
    definition.kind.keyword.toList <+: definition.content.toList ++ rest := by
  rcases standalone with ⟨blanks, header, inner, layout⟩
  rw [layout.content_append]
  exact List.prefix_append _ _

end Layouts

/-- What may lie ahead of a scanner that looks for a keyword. -/
inductive Shape : List Char → Prop
  | ended : Shape []
  | plain {character : Char} {rest : List Char}
      (none : DefinitionKind.opening? (character :: rest) = none) : Shape (character :: rest)
  | unnamed {kind : DefinitionKind} {ahead blanks rest : List Char}
      (named : Scanner.NameAhead ahead blanks [] rest) : Shape (kind.keyword.toList ++ ahead)
  | bodiless {kind : DefinitionKind} {ahead blanks name rest : List Char}
      (named : Scanner.NameAhead ahead blanks name rest) (present : name ≠ [])
      (noBrace : '\x7b' ∉ rest) : Shape (kind.keyword.toList ++ ahead)
  | unclosed {kind : DefinitionKind} {ahead blanks name header inner : List Char}
      (named : Scanner.NameAhead ahead blanks name (header ++ '\x7b' :: inner))
      (present : name ≠ []) (noBrace : '\x7b' ∉ header)
      (unclosed : Scanner.closingOffset? 0 ('\x7b' :: inner) = none) :
      Shape (kind.keyword.toList ++ ahead)
  | definition {definition : RawDefinition} {blanks header inner : List Char} (rest : List Char)
      (layout : LaidOut definition blanks header inner) : Shape (definition.content.toList ++ rest)

/-- A header with a body behind it makes up a definition, whatever comes after the body. -/
theorem exists_laidOut {kind : DefinitionKind} {ahead blanks name header inner rest : List Char}
    (named : Scanner.NameAhead ahead blanks name (header ++ '\x7b' :: inner ++ rest))
    (present : name ≠ []) (noBrace : '\x7b' ∉ header)
    (closes : Scanner.closingOffset? 0 ('\x7b' :: inner) = some inner.length) :
    ∃ definition, LaidOut definition blanks header inner ∧
      kind.keyword.toList ++ ahead = definition.content.toList ++ rest := by
  have whole := named.split
  subst ahead
  refine ⟨⟨kind, String.ofList name, String.ofList (kind.keyword.toList ++
    (blanks ++ (name ++ (header ++ '\x7b' :: inner))))⟩, ⟨?_, ?_, ?_, noBrace, closes⟩, ?_⟩
  · simp
  · rw [← Scanner.nameAhead_append_iff rest (by simp)]
    simpa using named
  · simpa using present
  · simp

theorem shape (ahead : List Char) : Shape ahead := by
  cases opening : DefinitionKind.opening? ahead with
  | none =>
      cases ahead with
      | nil => exact .ended
      | cons character rest => exact .plain opening
  | some kind =>
      rcases DefinitionKind.opening?_eq_some_iff.mp opening with ⟨ahead, rfl⟩
      rcases Scanner.exists_nameAhead ahead with ⟨blanks, name, rest, named⟩
      by_cases absent : name = []
      · subst name
        exact .unnamed named
      by_cases brace : '\x7b' ∈ rest
      case neg => exact .bodiless named absent brace
      rcases List.eq_append_cons_of_mem brace with ⟨header, after, rfl, noBrace⟩
      cases closes : Scanner.closingOffset? 0 ('\x7b' :: after) with
      | none => exact .unclosed named absent noBrace closes
      | some offset =>
          -- The body is cut off where it ends, and with it the definition.
          rcases Scanner.exists_body_of_closingOffset? closes with
            ⟨body, behind, split, length, ends⟩
          rcases List.exists_cons_of_length_eq_add_one length with ⟨first, inner, rfl⟩
          rw [List.cons_append, List.cons.injEq] at split
          rcases split with ⟨rfl, rfl⟩
          rw [List.length_cons, Nat.add_right_cancel_iff] at length
          subst offset
          have reachesOn : header ++ '\x7b' :: (inner ++ behind) =
              header ++ '\x7b' :: inner ++ behind := by simp
          rcases exists_laidOut (reachesOn ▸ named) absent noBrace ends with
            ⟨definition, layout, same⟩
          rw [same]
          exact .definition behind layout

namespace Scanner

variable {scanner : Scanner} {kind : DefinitionKind}
variable {ahead blanks name header inner rest : List Char}

theorem ahead_begun (split : scanner.ahead = kind.keyword.toList ++ ahead) :
    (scanner.begun kind).ahead = ahead := by
  have behind := ahead_pass_of_append split
  rwa [String.length_toList] at behind

theorem run_begun_of_append (scanning : scanner.state = .scanning)
    (split : scanner.ahead = kind.keyword.toList ++ ahead) :
    run scanner = run (scanner.begun kind) :=
  run_begun scanning (split ▸ List.prefix_append _ _)

theorem outcome_of_unnamed (scanning : scanner.state = .scanning)
    (split : scanner.ahead = kind.keyword.toList ++ ahead)
    (named : NameAhead ahead blanks [] rest) :
    outcome scanner = (scanner.definitions,
      some (.malformed (scanner.index + kind.keyword.length + blanks.length))) := by
  rw [outcome_congr (run_begun_of_append scanning split)]
  exact outcome_unnamed rfl rfl (ahead_begun split ▸ named)

/-- A definition without a body leaves the scanner behind its name, at the end of the text. -/
theorem exists_run_of_bodiless (scanning : scanner.state = .scanning)
    (split : scanner.ahead = kind.keyword.toList ++ ahead)
    (named : NameAhead ahead blanks name rest) (present : name ≠ []) (noBrace : '\x7b' ∉ rest) :
    ∃ final, run scanner = .ok () final ∧ final.state = .inName ∧ final.name ≠ "" ∧
      final.definitions = scanner.definitions := by
  have ran := run_bodiless rfl (ahead_begun split ▸ named) present noBrace
  rw [← run_begun_of_append scanning split] at ran
  refine ⟨_, ran, rfl, ?_, rfl⟩
  simpa [Scanner.named, pass] using present

theorem outcome_of_bodiless (scanning : scanner.state = .scanning)
    (split : scanner.ahead = kind.keyword.toList ++ ahead)
    (named : NameAhead ahead blanks name rest) (present : name ≠ []) (noBrace : '\x7b' ∉ rest) :
    outcome scanner = (scanner.definitions, none) := by
  rcases exists_run_of_bodiless scanning split named present noBrace with
    ⟨final, ran, naming, known, found⟩
  rw [outcome_of_run_eq_ok ran, conclude, naming, ← found]
  simp only [if_neg known]

/-- A scanner that has come to the body of a definition. -/
def atBody (scanner : Scanner) (kind : DefinitionKind) (blanks name header : List Char) : Scanner :=
  ((((scanner.begun kind).pass (blanks.length + name.length)).named name).pass
    header.length).entering

theorem ahead_atBody (split : scanner.ahead = kind.keyword.toList ++ ahead)
    (named : NameAhead ahead blanks name (header ++ rest)) :
    (scanner.atBody kind blanks name header).ahead = rest :=
  ahead_pass_of_append (ahead_begun split ▸ named).ahead_named

theorem run_atBody (scanning : scanner.state = .scanning)
    (split : scanner.ahead = kind.keyword.toList ++ ahead)
    (named : NameAhead ahead blanks name (header ++ '\x7b' :: inner)) (present : name ≠ [])
    (noBrace : '\x7b' ∉ header) :
    run scanner = run (scanner.atBody kind blanks name header) := by
  rw [run_begun_of_append scanning split]
  exact run_entering rfl (ahead_begun split ▸ named) present noBrace

theorem outcome_of_unclosed (scanning : scanner.state = .scanning)
    (split : scanner.ahead = kind.keyword.toList ++ ahead)
    (named : NameAhead ahead blanks name (header ++ '\x7b' :: inner)) (present : name ≠ [])
    (noBrace : '\x7b' ∉ header) (unclosed : closingOffset? 0 ('\x7b' :: inner) = none) :
    outcome scanner = (scanner.definitions, some (.unmatched (String.ofList name))) := by
  have body := ahead_atBody split named
  rw [outcome_congr (run_atBody scanning split named present noBrace)]
  apply outcome_unclosed rfl
  · simp [body]
  · rw [body, unclosed]

/-- A scanner that has just passed the definition. -/
def collected (scanner : Scanner) (definition : RawDefinition) : Scanner :=
  { scanner.pass definition.content.toList.length with
    definitions := scanner.definitions ++ [definition]
    kind := some definition.kind
    name := definition.name
    start := scanner.index
    state := .scanning }

/-- What lies ahead is no information of its own. -/
theorem ext_of_place {first second : Scanner} (text : first.text = second.text)
    (index : first.index = second.index) (state : first.state = second.state)
    (definitions : first.definitions = second.definitions) (kind : first.kind = second.kind)
    (name : first.name = second.name) (start : first.start = second.start) : first = second := by
  have ahead : first.ahead = second.ahead := by rw [first.ahead_eq, second.ahead_eq, text, index]
  cases first
  cases second
  simp_all only

theorem contentUpTo_of_append {content : List Char}
    (split : scanner.text.drop scanner.start = content ++ rest) :
    scanner.contentUpTo (scanner.start + content.length) = String.ofList content := by
  rw [contentUpTo, split, Nat.add_sub_cancel_left, List.take_left]

theorem closed_atBody {definition : RawDefinition}
    (split : scanner.ahead = definition.content.toList ++ rest)
    (layout : LaidOut definition blanks header inner) :
    (scanner.atBody definition.kind blanks definition.name.toList header).closed definition.kind
      inner.length = scanner.collected definition := by
  let place := scanner.atBody definition.kind blanks definition.name.toList header
  have reached : place.index + (inner.length + 1) =
      scanner.index + definition.content.toList.length := by
    have index : place.index = scanner.index + definition.kind.keyword.length +
      (blanks.length + definition.name.toList.length) + header.length := rfl
    rw [index, layout.length_content]
    omega
  have name : place.name = definition.name := String.ofList_toList
  apply ext_of_place
  case text => rfl
  case index => exact reached
  case state => rfl
  case definitions =>
    have text : place.text.drop place.start = definition.content.toList ++ rest := by
      rw [← split, scanner.ahead_eq]
      rfl
    have content : place.contentUpTo (scanner.index + definition.content.toList.length) =
        definition.content := (contentUpTo_of_append text).trans String.ofList_toList
    change scanner.definitions ++
        [RawDefinition.mk definition.kind place.name
          (place.contentUpTo (place.index + (inner.length + 1)))] =
      scanner.definitions ++ [definition]
    rw [reached, name, content]
  case kind => rfl
  case name => exact name
  case start => rfl

theorem run_of_definition {definition : RawDefinition} (scanning : scanner.state = .scanning)
    (split : scanner.ahead = definition.content.toList ++ rest)
    (layout : LaidOut definition blanks header inner) :
    run scanner = run (scanner.collected definition) := by
  have parts := split.trans (layout.content_append rest)
  have named := layout.named_append rest
  have closes : closingOffset? 0
      (scanner.atBody definition.kind blanks definition.name.toList header).ahead =
        some inner.length := by
    rw [ahead_atBody parts named]
    exact layout.closes_append rest
  rw [run_atBody scanning parts named layout.present layout.noBrace,
    run_closed rfl rfl closes, closed_atBody split layout]

theorem outcome_of_definition {definition : RawDefinition} (scanning : scanner.state = .scanning)
    (split : scanner.ahead = definition.content.toList ++ rest)
    (layout : LaidOut definition blanks header inner) :
    outcome scanner = outcome (scanner.collected definition) :=
  outcome_congr (run_of_definition scanning split layout)

theorem ahead_collected {definition : RawDefinition}
    (split : scanner.ahead = definition.content.toList ++ rest) :
    (scanner.collected definition).ahead = rest :=
  ahead_pass_of_append split

theorem length_ahead_collected_lt {definition : RawDefinition}
    (split : scanner.ahead = definition.content.toList ++ rest)
    (layout : LaidOut definition blanks header inner) :
    (scanner.collected definition).ahead.length < scanner.ahead.length := by
  rw [ahead_collected split, split, List.length_append, layout.length_content]
  omega

/--
What holds of a scanner that looks for a keyword may be proved by what lies ahead. It is assumed of
the scanner behind a character that starts no keyword, and of the scanner behind a definition.
-/
@[elab_as_elim]
theorem scanning_induction {motive : ∀ scanner : Scanner, scanner.state = .scanning → Prop}
    (ended : ∀ {scanner : Scanner} (scanning : scanner.state = .scanning),
      scanner.ahead = [] → motive scanner scanning)
    (plain : ∀ {scanner : Scanner} (scanning : scanner.state = .scanning), scanner.ahead ≠ [] →
      DefinitionKind.opening? scanner.ahead = none → motive (scanner.pass 1) scanning →
        motive scanner scanning)
    (unnamed : ∀ {scanner : Scanner} (scanning : scanner.state = .scanning) {kind : DefinitionKind}
      {ahead blanks rest : List Char}, scanner.ahead = kind.keyword.toList ++ ahead →
        NameAhead ahead blanks [] rest → motive scanner scanning)
    (bodiless : ∀ {scanner : Scanner} (scanning : scanner.state = .scanning) {kind : DefinitionKind}
      {ahead blanks name rest : List Char}, scanner.ahead = kind.keyword.toList ++ ahead →
        NameAhead ahead blanks name rest → name ≠ [] → '\x7b' ∉ rest → motive scanner scanning)
    (unclosed : ∀ {scanner : Scanner} (scanning : scanner.state = .scanning) {kind : DefinitionKind}
      {ahead blanks name header inner : List Char}, scanner.ahead = kind.keyword.toList ++ ahead →
        NameAhead ahead blanks name (header ++ '\x7b' :: inner) → name ≠ [] → '\x7b' ∉ header →
          closingOffset? 0 ('\x7b' :: inner) = none → motive scanner scanning)
    (definition : ∀ {scanner : Scanner} (scanning : scanner.state = .scanning)
      {definition : RawDefinition} {blanks header inner rest : List Char},
        scanner.ahead = definition.content.toList ++ rest →
          LaidOut definition blanks header inner → motive (scanner.collected definition) rfl →
            motive scanner scanning)
    {scanner : Scanner} (scanning : scanner.state = .scanning) : motive scanner scanning := by
  induction length : scanner.ahead.length using Nat.strong_induction_on generalizing scanner with
  | h length ih =>
  subst length
  generalize split : scanner.ahead = ahead
  cases shape ahead with
  | ended => exact ended scanning split
  | plain none =>
      have more : scanner.ahead ≠ [] := by simp [split]
      have later : (scanner.pass 1).ahead.length < scanner.ahead.length := by
        rw [ahead_pass, split, List.drop_one]
        exact Nat.lt_succ_self _
      have stillScanning : (scanner.pass 1).state = .scanning := scanning
      exact plain scanning more (split ▸ none) (ih _ later stillScanning rfl)
  | unnamed named => exact unnamed scanning split named
  | bodiless named present noBrace => exact bodiless scanning split named present noBrace
  | unclosed named present noBrace noEnd =>
      exact unclosed scanning split named present noBrace noEnd
  | definition rest layout =>
      exact definition scanning split layout (ih _ (length_ahead_collected_lt split layout) rfl rfl)

/-- Every definition that a scanner finds stands alone. -/
theorem standalone_of_mem_outcome (scanning : scanner.state = .scanning)
    (known : ∀ definition ∈ scanner.definitions, Standalone definition) :
    ∀ definition ∈ (outcome scanner).1, Standalone definition := by
  induction scanning using scanning_induction with
  | ended scanning done =>
      rw [outcome_of_ahead_eq_nil done, conclude, scanning]
      exact known
  | plain scanning more none ih =>
      rw [outcome_pass_one scanning more none]
      exact ih known
  | unnamed scanning split named =>
      rw [outcome_of_unnamed scanning split named]
      exact known
  | bodiless scanning split named present noBrace =>
      rw [outcome_of_bodiless scanning split named present noBrace]
      exact known
  | unclosed scanning split named present noBrace noEnd =>
      rw [outcome_of_unclosed scanning split named present noBrace noEnd]
      exact known
  | definition scanning split layout ih =>
      rw [outcome_of_definition scanning split layout]
      apply ih
      intro found member
      rcases List.mem_append.mp member with before | last
      · exact known found before
      · rw [List.mem_singleton] at last
        exact last ▸ ⟨_, _, _, layout⟩

end Scanner

end QueryPrep.Source
