import QueryPrep.Proofs.Source.Decomposition

/-!
# Where a scanner stands between its steps

A scanner goes round and round while there is text ahead, one step each time. Whenever it is about
to look at its text, its state says where in the text it stands: behind a keyword that has just been
found, at the brace of a body, or at the end of the text because what it was looking for is missing.
The definitions found so far are cut out of the text before that, one behind the other.

Every step keeps this and leads further into the text, so there are no more rounds than characters.
-/

namespace QueryPrep.Source

open QueryPrep.Graphql QueryPrep.Text

/-- A stretch of a text, from one position up to another, that one not included. -/
structure Span where
  start : Nat
  stop : Nat

/-- The part of the text that the span covers. -/
def Span.cut (span : Span) (text : List Char) : String :=
  String.ofList ((text.drop span.start).take (span.stop - span.start))

/--
The contents of the definitions are cut out of the text in source order. No two of the stretches
overlap, and none reaches beyond the limit.
-/
def CutOut (text : List Char) (limit : Nat) (definitions : List RawDefinition) : Prop :=
  ∃ spans : List Span, definitions.map RawDefinition.content = spans.map (·.cut text) ∧
    spans.Pairwise (fun earlier later => earlier.stop ≤ later.start) ∧
    ∀ span ∈ spans, span.start < span.stop ∧ span.stop ≤ limit

section Spans

variable {text : List Char} {limit further : Nat} {definitions : List RawDefinition}

theorem CutOut.nil : CutOut text limit [] :=
  ⟨[], rfl, .nil, by simp⟩

theorem CutOut.mono (cut : CutOut text limit definitions) (later : limit ≤ further) :
    CutOut text further definitions := by
  rcases cut with ⟨spans, contents, apart, reached⟩
  refine ⟨spans, contents, apart, ?_⟩
  intro span member
  exact ⟨(reached span member).1, (reached span member).2.trans later⟩

/-- What begins behind everything cut out before may be cut out next. -/
theorem CutOut.append {definition : RawDefinition} (cut : CutOut text limit definitions)
    (present : limit < further) (content : definition.content = Span.cut ⟨limit, further⟩ text) :
    CutOut text further (definitions ++ [definition]) := by
  rcases cut with ⟨spans, contents, apart, reached⟩
  refine ⟨spans ++ [⟨limit, further⟩], ?_, ?_, ?_⟩
  · simp only [List.map_append, contents, List.map_singleton, content]
  · rw [List.pairwise_append]
    refine ⟨apart, List.pairwise_singleton _ _, ?_⟩
    intro earlier member later last
    rw [List.mem_singleton.mp last]
    exact (reached earlier member).2
  · intro span member
    rcases List.mem_append.mp member with before | last
    · exact ⟨(reached span before).1, (reached span before).2.trans present.le⟩
    · rw [List.mem_singleton.mp last]
      exact ⟨present, Nat.le_refl _⟩

end Spans

namespace Scanner

/-- A definition has begun: its keyword stands behind everything that has been cut out. -/
structure Begun (scanner : Scanner) (kind : DefinitionKind) : Prop where
  kind_eq : scanner.kind = some kind
  keyword : KeywordAt scanner.text kind scanner.start
  cut : CutOut scanner.text scanner.start scanner.definitions

/--
The body of the definition that has begun starts at the position: there is the first opening brace
behind its name.
-/
structure BodyAt (scanner : Scanner) (kind : DefinitionKind) (bodyAt : Nat) : Prop where
  present : scanner.name ≠ ""
  brace : ∃ nameAt, HeaderAt scanner.text scanner.start kind scanner.start nameAt
      scanner.name.toList ∧
    FirstFrom (nameAt + scanner.name.toList.length)
      (fun position => scanner.text[position]? = some '\x7b') bodyAt

/-- What holds whenever a scanner is about to look at its text. -/
structure InPlace (scanner : Scanner) : Prop where
  within : scanner.index ≤ scanner.text.length
  cut : CutOut scanner.text scanner.index scanner.definitions
  /-- The keyword has just been passed, or the name is known and the text at its end. -/
  naming : scanner.state = .inName → ∃ kind, scanner.Begun kind ∧
    (scanner.name = "" ∧ scanner.index = scanner.start + kind.keyword.length ∨
      scanner.name ≠ "" ∧ scanner.index = scanner.text.length)
  /-- The body has just been reached, or it has no end. -/
  inside : scanner.state = .inBody → ∃ kind bodyAt, scanner.Begun kind ∧
    scanner.BodyAt kind bodyAt ∧
    (scanner.index = bodyAt ∨
      scanner.index = scanner.text.length ∧
        ∀ position, bodyAt ≤ position → ¬ BalancedUpTo scanner.text bodyAt position)

section Steps

variable {scanner next : Scanner} {kind : DefinitionKind}
variable {ahead blanks name header inner : List Char}

theorem within_pass {count : Nat} (within : scanner.index ≤ scanner.text.length)
    (room : count ≤ scanner.ahead.length) :
    (scanner.pass count).index ≤ scanner.text.length := by
  rw [length_ahead] at room
  rw [index_pass]
  omega

theorem InPlace.of_scanning (scanning : scanner.state = .scanning)
    (within : scanner.index ≤ scanner.text.length)
    (cut : CutOut scanner.text scanner.index scanner.definitions) : scanner.InPlace := by
  refine ⟨within, cut, ?_, ?_⟩ <;> simp [scanning]

/-- Behind the keyword of a definition, the text from its start on is the keyword and what is ahead. -/
theorem Begun.drop_start (begun : scanner.Begun kind)
    (reached : scanner.index = scanner.start + kind.keyword.length) :
    scanner.text.drop scanner.start = kind.keyword.toList ++ scanner.ahead := by
  rcases begun.keyword with ⟨behind, split⟩
  have ahead := drop_keyword split.symm
  rw [← split, ← ahead, ← reached, ← scanner.ahead_eq]

theorem BodyAt.of_nameAhead
    (split : scanner.text.drop scanner.start = kind.keyword.toList ++ ahead)
    (named : NameAhead ahead blanks name (header ++ '\x7b' :: inner)) (present : name ≠ [])
    (noBrace : '\x7b' ∉ header) (known : scanner.name = String.ofList name) :
    scanner.BodyAt kind
      (scanner.start + kind.keyword.length + blanks.length + name.length + header.length) := by
  have letters : scanner.name.toList = name := by rw [known, String.toList_ofList]
  constructor
  case present => simpa [known] using present
  case brace =>
    refine ⟨scanner.start + kind.keyword.length + blanks.length, ?_, ?_⟩
    · rw [letters]
      exact headerAt_of_nameAhead split named
    · rw [letters]
      exact firstFrom_brace_of_append (drop_header split named) noBrace

/-- A scanner finds no text behind the blanks, passes a keyword there, or passes one character. -/
theorem scan_cases (scanner : Scanner) :
    scanner.scan = scanner.skipBlanks ∨
    (∃ kind : DefinitionKind, kind.keyword.toList <+: scanner.skipBlanks.ahead ∧
      scanner.scan = scanner.skipBlanks.begun kind) ∨
    (scanner.skipBlanks.ahead ≠ [] ∧ scanner.scan = scanner.skipBlanks.pass 1) := by
  unfold scan
  dsimp only
  split
  case isTrue => exact .inl rfl
  case isFalse more =>
    right
    split
    case h_1 kind opening => exact .inl ⟨kind, DefinitionKind.opens_of_opening? opening, rfl⟩
    case h_2 => exact .inr ⟨by simpa using more, rfl⟩

theorem InPlace.scan (place : scanner.InPlace) (scanning : scanner.state = .scanning) :
    scanner.scan.InPlace := by
  have visible : scanner.skipBlanks.index ≤ scanner.text.length :=
    within_pass place.within (List.takeWhile_prefix _).length_le
  have cut : CutOut scanner.text scanner.skipBlanks.index scanner.definitions :=
    place.cut.mono (index_le_skipBlanks scanner)
  rcases scan_cases scanner with same | ⟨kind, opens, same⟩ | ⟨more, same⟩
  · rw [same]
    exact .of_scanning scanning visible cut
  · rw [same]
    have room := opens.length_le
    rw [String.length_toList] at room
    have keyword : KeywordAt scanner.text kind scanner.skipBlanks.index := by
      rwa [scanner.skipBlanks.ahead_eq] at opens
    have behind : (scanner.skipBlanks.begun kind).index ≤ scanner.text.length :=
      within_pass visible room
    refine ⟨behind, cut.mono (Nat.le_add_right _ _), ?_, ?_⟩
    · intro _
      exact ⟨kind, ⟨rfl, keyword, cut⟩, .inl ⟨rfl, rfl⟩⟩
    · intro inside
      cases inside
  · rw [same]
    have behind : (scanner.skipBlanks.pass 1).index ≤ scanner.text.length :=
      within_pass visible (List.length_pos_iff.mpr more)
    exact .of_scanning scanning behind (cut.mono (Nat.le_add_right _ _))

theorem InPlace.of_readName (place : scanner.InPlace) (naming : scanner.state = .inName)
    (more : scanner.ahead ≠ []) (read : readName scanner = .ok () next) : next.InPlace := by
  have room := ahead_ne_nil_iff.mp more
  rcases place.naming naming with ⟨kind, begun, ⟨_, reached⟩ | ⟨_, ended⟩⟩
  case inr => omega
  rcases exists_nameAhead scanner.ahead with ⟨blanks, name, rest, named⟩
  have length := length_ahead scanner
  rw [named.split, List.length_append, List.length_append] at length
  by_cases absent : name = []
  · subst name
    cases read.symm.trans named.readName_of_unnamed
  by_cases brace : '\x7b' ∈ rest
  · rcases List.eq_append_cons_of_mem brace with ⟨header, inner, rfl, noBrace⟩
    cases read.symm.trans (named.readName_of_brace absent noBrace)
    rw [List.length_append] at length
    have passed : scanner.index + (blanks.length + name.length) + header.length =
        scanner.start + kind.keyword.length + blanks.length + name.length + header.length := by
      omega
    constructor
    case within =>
      change scanner.index + (blanks.length + name.length) + header.length ≤ scanner.text.length
      omega
    case cut => exact place.cut.mono ((Nat.le_add_right _ _).trans (Nat.le_add_right _ _))
    case naming =>
      intro naming
      cases naming
    case inside =>
      intro _
      exact ⟨kind, _, ⟨begun.kind_eq, begun.keyword, begun.cut⟩,
        .of_nameAhead (begun.drop_start reached) named absent noBrace rfl, .inl passed⟩
  · cases read.symm.trans (named.readName_of_bodiless absent brace)
    have ended : scanner.index + (blanks.length + name.length) + rest.length =
        scanner.text.length := by
      omega
    constructor
    case within => exact ended.le
    case cut => exact place.cut.mono ((Nat.le_add_right _ _).trans (Nat.le_add_right _ _))
    case naming =>
      intro _
      refine ⟨kind, ⟨begun.kind_eq, begun.keyword, begun.cut⟩, .inr ⟨?_, ended⟩⟩
      simpa [Scanner.named, pass] using absent
    case inside =>
      intro inside
      cases naming.symm.trans inside

theorem InPlace.of_readBody (place : scanner.InPlace) (inside : scanner.state = .inBody)
    (more : scanner.ahead ≠ []) (read : readBody scanner = .ok () next) : next.InPlace := by
  have room := ahead_ne_nil_iff.mp more
  rcases place.inside inside with ⟨kind, bodyAt, begun, body, reached | ⟨ended, _⟩⟩
  case inr => omega
  subst bodyAt
  rcases body.brace with ⟨nameAt, header, brace⟩
  have opens : scanner.text.drop scanner.index = '\x7b' :: scanner.text.drop (scanner.index + 1) := by
    rcases List.getElem?_eq_some_iff.mp brace.1.2 with ⟨_, character⟩
    rw [List.drop_eq_getElem_cons room, character]
  have length := length_ahead scanner
  cases closes : closingOffset? 0 scanner.ahead with
  | none =>
      cases read.symm.trans (readBody_of_unclosed closes)
      have ended : (scanner.pass scanner.ahead.length).index = scanner.text.length := by
        rw [index_pass]
        omega
      refine ⟨ended.le, place.cut.mono (Nat.le_add_right _ _), ?_, ?_⟩
      · intro naming
        cases inside.symm.trans naming
      · intro _
        rw [scanner.ahead_eq] at closes
        exact ⟨kind, scanner.index, ⟨begun.kind_eq, begun.keyword, begun.cut⟩,
          ⟨body.present, nameAt, header, brace⟩,
          .inr ⟨ended, not_balancedUpTo_of_closingOffset? opens closes⟩⟩
  | some offset =>
      cases read.symm.trans (readBody_of_closed begun.kind_eq closes)
      have closing : offset + 1 ≤ scanner.ahead.length := by
        rcases exists_body_of_closingOffset? closes with ⟨inner, behind, split, size, _⟩
        rw [split, List.length_append]
        omega
      have begins : scanner.start < scanner.index + (offset + 1) := by
        have named := header.visible.1.1
        have later := brace.1.1
        omega
      exact .of_scanning rfl (within_pass place.within closing) (begun.cut.append begins rfl)

theorem InPlace.of_step (place : scanner.InPlace) (more : scanner.ahead ≠ [])
    (stepped : step scanner = .ok () next) : next.InPlace := by
  unfold step at stepped
  split at stepped
  case h_1 scanning =>
    cases stepped
    exact place.scan scanning
  case h_2 naming => exact place.of_readName naming more stepped
  case h_3 inside => exact place.of_readBody inside more stepped

end Steps

section Rounds

/--
The scanner of a text after some number of rounds, where it is decided whether there is another one.
-/
inductive AfterRounds (text : String) : Nat → Scanner → Prop
  | start : AfterRounds text 0 (ofText text)
  | round {rounds : Nat} {scanner next : Scanner} (before : AfterRounds text rounds scanner)
      (more : scanner.index < scanner.text.length) (stepped : step scanner = .ok () next) :
      AfterRounds text (rounds + 1) next

variable {text : String} {rounds : Nat} {scanner : Scanner}

theorem inPlace_ofText (text : String) : (ofText text).InPlace :=
  .of_scanning rfl (Nat.zero_le _) .nil

theorem AfterRounds.inPlace (after : AfterRounds text rounds scanner) : scanner.InPlace := by
  induction after with
  | start => exact inPlace_ofText text
  | round before more stepped place => exact place.of_step (ahead_ne_nil_iff.mpr more) stepped

theorem AfterRounds.text_eq (after : AfterRounds text rounds scanner) :
    scanner.text = text.toList := by
  induction after with
  | start => rfl
  | round before more stepped same =>
      exact (behind_of_step (ahead_ne_nil_iff.mpr more) stepped).text_eq.trans same

/-- Every round passes a character at least. -/
theorem AfterRounds.rounds_le_index (after : AfterRounds text rounds scanner) :
    rounds ≤ scanner.index := by
  induction after with
  | start => exact Nat.le_refl _
  | round before more stepped passed =>
      have further := (behind_of_step (ahead_ne_nil_iff.mpr more) stepped).index_lt
      omega

theorem AfterRounds.index_le_length (after : AfterRounds text rounds scanner) :
    scanner.index ≤ text.length := by
  have within := after.inPlace.within
  rwa [after.text_eq, String.length_toList] at within

/-- The run of a scanner is its last round: the text ends there, or the step of it fails. -/
theorem AfterRounds.exists_last (after : AfterRounds text rounds scanner)
    (same : run (ofText text) = run scanner) :
    ∃ rounds last, AfterRounds text rounds last ∧
      ((run (ofText text) = .ok () last ∧ last.index = text.length) ∨
        ∃ error final, run (ofText text) = .error error final ∧ step last = .error error final ∧
          last.index < text.length) := by
  induction length : scanner.ahead.length using Nat.strong_induction_on
    generalizing scanner rounds with
  | h length ih =>
  subst length
  have within := after.index_le_length
  have reached := length_ahead scanner
  rw [after.text_eq, String.length_toList] at reached
  by_cases done : scanner.ahead = []
  · refine ⟨rounds, scanner, after, .inl ⟨same.trans (run_of_ahead_eq_nil done), ?_⟩⟩
    rw [done, List.length_nil] at reached
    omega
  have positive := List.length_pos_iff.mpr done
  rw [run_of_ahead_ne_nil done] at same
  cases stepped : step scanner with
  | error error final =>
      rw [stepped] at same
      exact ⟨rounds, scanner, after, .inr ⟨error, final, same, stepped, by omega⟩⟩
  | ok _ next =>
      rw [stepped] at same
      have shorter := (behind_of_step done stepped).length_ahead_lt done
      exact ih _ shorter (after.round (ahead_ne_nil_iff.mp done) stepped) same rfl

/--
Before every round the scanner of a text is in place, and a round that does not fail leads further.
So there are at most as many rounds as characters, the one that fails included, and behind the last
of them the scanner has run.
-/
theorem inPlace_afterRounds (text : String) :
    (∀ rounds scanner, AfterRounds text rounds scanner →
      scanner.text = text.toList ∧ scanner.InPlace ∧ rounds ≤ text.length ∧
        ∀ next, scanner.index < text.length → step scanner = .ok () next →
          scanner.index < next.index) ∧
      ∃ rounds last, AfterRounds text rounds last ∧
        ((run (ofText text) = .ok () last ∧ last.index = text.length) ∨
          ∃ error final, run (ofText text) = .error error final ∧ step last = .error error final ∧
            last.index < text.length ∧ rounds < text.length) := by
  constructor
  · intro rounds scanner after
    refine ⟨after.text_eq, after.inPlace, ?_, ?_⟩
    · exact after.rounds_le_index.trans after.index_le_length
    · intro next more stepped
      rw [← String.length_toList, ← after.text_eq] at more
      exact (behind_of_step (ahead_ne_nil_iff.mpr more) stepped).index_lt
  · rcases AfterRounds.start.exists_last rfl with ⟨rounds, last, after, ending⟩
    refine ⟨rounds, last, after, ending.imp_right ?_⟩
    rintro ⟨error, final, ran, stepped, more⟩
    exact ⟨error, final, ran, stepped, more, after.rounds_le_index.trans_lt more⟩

/-- A definition, and the keyword of another one at the end. -/
def draftText : String :=
  "query Draft \x7b memo \x7d fragment"

/-- The scanner of the draft after some rounds, as long as no step fails. -/
def draftScanner : Nat → Scanner
  | 0 => ofText draftText
  | rounds + 1 =>
      match step (draftScanner rounds) with
      | .ok _ next => next
      | .error _ last => last

theorem inPlace_afterRounds_draftText :
    AfterRounds draftText 4 (draftScanner 4) ∧
      (draftScanner 4).definitions = [⟨.query, "Draft", "query Draft \x7b memo \x7d"⟩] ∧
      ((draftScanner 4).state = .inName ∧ (draftScanner 4).start = 21) ∧
      (draftScanner 4).InPlace := by
  have first : AfterRounds draftText 1 (draftScanner 1) := .round .start (by decide +kernel) rfl
  have second : AfterRounds draftText 2 (draftScanner 2) := .round first (by decide +kernel) rfl
  have third : AfterRounds draftText 3 (draftScanner 3) := .round second (by decide +kernel) rfl
  have fourth : AfterRounds draftText 4 (draftScanner 4) := .round third (by decide +kernel) rfl
  refine ⟨fourth, by decide +kernel, ⟨by decide +kernel, by decide +kernel⟩, ?_⟩
  exact ((inPlace_afterRounds draftText).1 4 _ fourth).2.1

end Rounds

end Scanner

end QueryPrep.Source
