import QueryPrep.Source.Progress
import Mathlib.Data.List.TakeWhile

/-!
# What a scanner comes to

A scanner steps through its text until it fails or the text ends. This file follows it from one
place that matters to the next: from anywhere to a keyword, from the keyword over the name to the
opening brace, and from there to the closing one. Each stretch is described by the characters
that lie ahead, and the run of a scanner is the same before and after it, and so is what it comes to
in the end.

The way in which steps share the work is gone then. A blank before a keyword is passed like any
other character, and it does not matter whether a missing name is noticed by a step or at the end.
-/

namespace QueryPrep.Source

open QueryPrep.Graphql QueryPrep.Text

namespace DefinitionKind

variable {text : List Char} {kind other : DefinitionKind}

theorem eq_of_opens (first : kind.keyword.toList <+: text)
    (second : other.keyword.toList <+: text) : kind = other := by
  have nested := List.prefix_or_prefix_of_prefix first second
  cases kind <;> cases other <;> first | rfl | exact absurd nested (by decide)

theorem opens_of_opening? (found : opening? text = some kind) :
    kind.keyword.toList <+: text := by
  rw [opening?] at found
  have holds := List.find?_some found
  exact List.isPrefixOf_iff_prefix.mp holds

theorem opening?_eq_some_iff : opening? text = some kind ↔ kind.keyword.toList <+: text := by
  constructor
  · exact opens_of_opening?
  · intro opens
    cases found : opening? text with
    | none =>
        rw [opening?, List.find?_eq_none] at found
        have absent := found kind (by cases kind <;> simp [all])
        exact absurd (List.isPrefixOf_iff_prefix.mpr opens) absent
    | some other => rw [eq_of_opens (opens_of_opening? found) opens]

theorem opening?_eq_none_iff :
    opening? text = none ↔ ∀ kind : DefinitionKind, ¬ kind.keyword.toList <+: text := by
  simp only [Option.eq_none_iff_forall_ne_some, ne_eq, opening?_eq_some_iff]

theorem keyword_ne_nil (kind : DefinitionKind) : kind.keyword.toList ≠ [] := by
  cases kind <;> decide

theorem isBlank_of_mem_keyword {character : Char} (member : character ∈ kind.keyword.toList) :
    isBlank character = false := by
  have visible : kind.keyword.toList.all (fun letter => !isBlank letter) = true := by
    cases kind <;> decide
  simpa using List.all_eq_true.mp visible character member

/-- No keyword starts with a blank. -/
theorem isBlank_of_opens {character : Char} {rest : List Char}
    (opens : kind.keyword.toList <+: character :: rest) : isBlank character = false := by
  have member : character ∈ kind.keyword.toList := by
    cases letters : kind.keyword.toList with
    | nil => exact absurd letters kind.keyword_ne_nil
    | cons first others =>
        rw [letters, List.cons_prefix_cons] at opens
        rw [opens.1]
        exact List.mem_cons_self
  exact isBlank_of_mem_keyword member

end DefinitionKind

namespace Scanner

variable {scanner other next final : Scanner} {error : SplitError}

/-- What a scanner comes to: all definitions that it finds, and the error that ends it, if any. -/
def outcome (scanner : Scanner) : List RawDefinition × Option SplitError :=
  match split scanner with
  | .ok definitions _ => (definitions, none)
  | .error error final => (final.definitions, some error)

section Steps

theorem outcome_congr (same : run scanner = run other) : outcome scanner = outcome other := by
  simp only [outcome, split, same]

theorem outcome_of_run_eq_ok (ran : run scanner = .ok () final) :
    outcome scanner =
      match final.conclude with
      | .ok definitions => (definitions, none)
      | .error error => (final.definitions, some error) := by
  simp only [outcome, split, ran]
  cases final.conclude <;> rfl

theorem outcome_of_run_eq_error (ran : run scanner = .error error final) :
    outcome scanner = (final.definitions, some error) := by
  simp only [outcome, split, ran]

theorem run_of_step_eq_ok (more : scanner.ahead ≠ []) (stepped : step scanner = .ok () next) :
    run scanner = run next := by
  rw [run_of_ahead_ne_nil more, stepped]

theorem outcome_of_step_eq_error (more : scanner.ahead ≠ [])
    (stepped : step scanner = .error error final) :
    outcome scanner = (final.definitions, some error) := by
  apply outcome_of_run_eq_error
  rw [run_of_ahead_ne_nil more, stepped]

theorem outcome_of_ahead_eq_nil (done : scanner.ahead = []) :
    outcome scanner =
      match scanner.conclude with
      | .ok definitions => (definitions, none)
      | .error error => (scanner.definitions, some error) :=
  outcome_of_run_eq_ok (run_of_ahead_eq_nil done)

end Steps

section Passing

theorem pass_pass (scanner : Scanner) (first second : Nat) :
    (scanner.pass first).pass second = scanner.pass (first + second) := by
  simp [pass, List.drop_drop, Nat.add_assoc]

theorem ahead_pass (scanner : Scanner) (count : Nat) :
    (scanner.pass count).ahead = scanner.ahead.drop count := rfl

theorem ahead_pass_of_append {run rest : List Char} (split : scanner.ahead = run ++ rest) :
    (scanner.pass run.length).ahead = rest := by
  rw [ahead_pass, split, List.drop_left]

end Passing

section Keywords

theorem skipBlanks_eq_self {character : Char} {rest : List Char}
    (ahead : scanner.ahead = character :: rest) (visible : isBlank character = false) :
    scanner.skipBlanks = scanner := by
  rw [skipBlanks, ahead, List.takeWhile_cons_of_neg (by simp [visible])]
  rfl

theorem skipBlanks_pass_one {character : Char} {rest : List Char}
    (ahead : scanner.ahead = character :: rest) (blank : isBlank character = true) :
    (scanner.pass 1).skipBlanks = scanner.skipBlanks := by
  have behind : (scanner.pass 1).ahead = rest := by rw [ahead_pass, ahead]; rfl
  rw [skipBlanks, skipBlanks, behind, ahead, List.takeWhile_cons_of_pos blank, pass_pass,
    List.length_cons, Nat.add_comm]

theorem scan_congr (same : scanner.skipBlanks = other.skipBlanks) : scanner.scan = other.scan := by
  rw [scan, scan, same]

/-- A character that starts no keyword is passed. -/
theorem run_pass_one (scanning : scanner.state = .scanning) (more : scanner.ahead ≠ [])
    (none : DefinitionKind.opening? scanner.ahead = none) :
    run scanner = run (scanner.pass 1) := by
  have stepped : step scanner = .ok () scanner.scan := by rw [step, scanning]
  rw [run_of_step_eq_ok more stepped]
  rcases List.exists_cons_of_ne_nil more with ⟨character, rest, ahead⟩
  cases blank : isBlank character with
  | false =>
      have place := skipBlanks_eq_self ahead blank
      have notEmpty : ¬ scanner.ahead.isEmpty := by simpa using more
      simp only [scan, place, none, if_neg notEmpty]
  | true =>
      have place := skipBlanks_pass_one ahead blank
      have behind : (scanner.pass 1).ahead = rest := by rw [ahead_pass, ahead]; rfl
      by_cases last : rest = []
      · -- There is nothing left to step over, and all that was skipped is this one blank.
        have skipped : scanner.skipBlanks = scanner.pass 1 := by
          rw [← place, skipBlanks, behind, last]
          rfl
        have done : (scanner.pass 1).ahead.isEmpty := by rw [behind, last]; rfl
        simp only [scan, skipped, if_pos done]
      · have laterStepped : step (scanner.pass 1) = .ok () (scanner.pass 1).scan := by
          have laterScanning : (scanner.pass 1).state = .scanning := scanning
          rw [step, laterScanning]
        rw [run_of_step_eq_ok (behind ▸ last) laterStepped, scan_congr place]

theorem outcome_pass_one (scanning : scanner.state = .scanning) (more : scanner.ahead ≠ [])
    (none : DefinitionKind.opening? scanner.ahead = none) :
    outcome scanner = outcome (scanner.pass 1) :=
  outcome_congr (run_pass_one scanning more none)

/-- A scanner that has just passed the keyword of a definition. -/
def begun (scanner : Scanner) (kind : DefinitionKind) : Scanner :=
  { scanner.pass kind.keyword.length with
    kind := some kind
    name := ""
    start := scanner.index
    state := .inName }

/-- A keyword begins a definition. -/
theorem run_begun {kind : DefinitionKind} (scanning : scanner.state = .scanning)
    (opens : kind.keyword.toList <+: scanner.ahead) :
    run scanner = run (scanner.begun kind) := by
  have more : scanner.ahead ≠ [] := by
    intro done
    rw [done, List.prefix_nil] at opens
    exact kind.keyword_ne_nil opens
  have stepped : step scanner = .ok () scanner.scan := by rw [step, scanning]
  rw [run_of_step_eq_ok more stepped]
  rcases List.exists_cons_of_ne_nil more with ⟨character, rest, ahead⟩
  have visible := DefinitionKind.isBlank_of_opens (ahead ▸ opens)
  have place := skipBlanks_eq_self ahead visible
  have notEmpty : ¬ scanner.ahead.isEmpty := by simpa using more
  simp only [scan, place, DefinitionKind.opening?_eq_some_iff.mpr opens, if_neg notEmpty, begun]

end Keywords

section Names

variable {ahead blanks name header rest : List Char}

theorem takeWhile_append_of_stop {p : Char → Bool} {run : List Char}
    (passed : ∀ character ∈ run, p character = true)
    (stops : ∀ character ∈ rest.head?, p character = false) :
    (run ++ rest).takeWhile p = run := by
  rw [List.takeWhile_append_of_pos passed]
  cases rest with
  | nil => simp
  | cons first others =>
      have stopped := stops first rfl
      simp [stopped]

theorem head?_dropWhile_eq_false {p : Char → Bool} (text : List Char) :
    ∀ character ∈ (text.dropWhile p).head?, p character = false := by
  intro character first
  have stopped := List.head?_dropWhile_not p text
  rw [Option.mem_def.mp first] at stopped
  simpa using stopped

/-- Blanks, the longest run of name characters after them, and the rest. -/
structure NameAhead (ahead blanks name rest : List Char) : Prop where
  split : ahead = blanks ++ (name ++ rest)
  blank : ∀ character ∈ blanks, isBlank character = true
  visible : ∀ character ∈ (name ++ rest).head?, isBlank character = false
  nameLike : ∀ character ∈ name, isNameContinue character = true
  maximal : ∀ character ∈ rest.head?, isNameContinue character = false

theorem exists_nameAhead (ahead : List Char) :
    ∃ blanks name rest, NameAhead ahead blanks name rest := by
  let after := ahead.dropWhile isBlank
  have named : after.takeWhile isNameContinue ++ after.dropWhile isNameContinue = after :=
    List.takeWhile_append_dropWhile
  refine ⟨ahead.takeWhile isBlank, after.takeWhile isNameContinue,
    after.dropWhile isNameContinue, ?_, ?_, ?_, ?_, head?_dropWhile_eq_false after⟩
  · rw [named]
    exact List.takeWhile_append_dropWhile.symm
  · intro character member
    exact List.mem_takeWhile_imp member
  · rw [named]
    exact head?_dropWhile_eq_false ahead
  · intro character member
    exact List.mem_takeWhile_imp member

theorem NameAhead.skipBlanks_eq (split : NameAhead scanner.ahead blanks name rest) :
    scanner.skipBlanks = scanner.pass blanks.length := by
  rw [skipBlanks, split.split, takeWhile_append_of_stop split.blank split.visible]

/-- Where no name follows, none is read. -/
theorem NameAhead.readName_of_unnamed (split : NameAhead scanner.ahead blanks [] rest) :
    readName scanner =
      .error (.malformed (scanner.index + blanks.length)) (scanner.pass blanks.length) := by
  have place := split.skipBlanks_eq
  have behind := ahead_pass_of_append split.split
  have noName := takeWhile_append_of_stop split.nameLike split.maximal
  simp only [readName, place, behind, noName, List.isEmpty_nil, if_true]
  rfl

/-- Where no name follows, the place behind the blanks is reported. -/
theorem outcome_unnamed (naming : scanner.state = .inName) (unnamed : scanner.name = "")
    (split : NameAhead scanner.ahead blanks [] rest) :
    outcome scanner =
      (scanner.definitions, some (.malformed (scanner.index + blanks.length))) := by
  by_cases done : scanner.ahead = []
  · have noBlanks : blanks = [] := (List.append_eq_nil_iff.mp (split.split.symm.trans done)).1
    rw [outcome_of_ahead_eq_nil done]
    simp [conclude, naming, unnamed, noBlanks]
  · have stepped : step scanner = readName scanner := by rw [step, naming]
    rw [split.readName_of_unnamed] at stepped
    rw [outcome_of_step_eq_error done stepped]
    rfl

/-- The same place with the name of the definition known. -/
def named (scanner : Scanner) (name : List Char) : Scanner :=
  { scanner with name := String.ofList name }

/-- The place of the next opening brace, or the end of the text. -/
def toBrace (scanner : Scanner) : Scanner :=
  scanner.pass (scanner.ahead.takeWhile (· != '\x7b')).length

/-- The same place, which is where a body begins. -/
def entering (scanner : Scanner) : Scanner :=
  { scanner with state := .inBody }

/-- A name is read together with the rest of the header, up to the opening brace if there is one. -/
theorem NameAhead.readName_eq (split : NameAhead scanner.ahead blanks name rest)
    (some : name ≠ []) :
    readName scanner =
      let brace := ((scanner.pass (blanks.length + name.length)).named name).toBrace
      if brace.ahead.isEmpty then .ok () brace else .ok () brace.entering := by
  have place := split.skipBlanks_eq
  have behind := ahead_pass_of_append split.split
  have word := takeWhile_append_of_stop split.nameLike split.maximal
  have notEmpty : ¬ name.isEmpty := by simpa using some
  rw [← pass_pass]
  unfold readName
  simp only [place, behind, word, if_neg notEmpty]
  rfl

theorem NameAhead.ahead_named (split : NameAhead scanner.ahead blanks name rest) :
    ((scanner.pass (blanks.length + name.length)).named name).ahead = rest := by
  rw [← pass_pass]
  exact ahead_pass_of_append (ahead_pass_of_append split.split)

theorem toBrace_eq (split : scanner.ahead = header ++ rest) (noBrace : '\x7b' ∉ header)
    (brace : ∀ character ∈ rest.head?, character = '\x7b') :
    scanner.toBrace = scanner.pass header.length := by
  rw [toBrace, split, takeWhile_append_of_stop]
  · intro character member
    simpa using fun same : character = '\x7b' => noBrace (same ▸ member)
  · intro character first
    simp [brace character first]

/-- Without a brace behind it, a name is read together with all that follows. -/
theorem NameAhead.readName_of_bodiless (split : NameAhead scanner.ahead blanks name rest)
    (some : name ≠ []) (noBrace : '\x7b' ∉ rest) :
    readName scanner =
      .ok () (((scanner.pass (blanks.length + name.length)).named name).pass rest.length) := by
  let place := (scanner.pass (blanks.length + name.length)).named name
  have whole : place.ahead = rest ++ [] := by rw [split.ahead_named, List.append_nil]
  have passed : place.toBrace = place.pass rest.length := toBrace_eq whole noBrace (by simp)
  have done : (place.pass rest.length).ahead = [] := by
    rw [ahead_pass, split.ahead_named, List.drop_length]
  rw [split.readName_eq some]
  change (if place.toBrace.ahead.isEmpty then _ else _) = _
  rw [passed, if_pos (List.isEmpty_iff.mpr done)]

/-- With a brace behind it, a name is read together with the header of the body. -/
theorem NameAhead.readName_of_brace
    (split : NameAhead scanner.ahead blanks name (header ++ '\x7b' :: rest)) (some : name ≠ [])
    (noBrace : '\x7b' ∉ header) :
    readName scanner =
      .ok () (((scanner.pass (blanks.length + name.length)).named name).pass
        header.length).entering := by
  have passed := toBrace_eq split.ahead_named noBrace (by simp)
  have behind := ahead_pass_of_append split.ahead_named
  simp only [split.readName_eq some, passed, behind]
  rfl

/-- A definition without a body is passed over with all that follows. -/
theorem run_bodiless (naming : scanner.state = .inName)
    (split : NameAhead scanner.ahead blanks name rest) (some : name ≠ [])
    (noBrace : '\x7b' ∉ rest) :
    run scanner =
      .ok () (((scanner.pass (blanks.length + name.length)).named name).pass rest.length) := by
  have more : scanner.ahead ≠ [] := by simp [split.split, some]
  have stepped : step scanner = readName scanner := by rw [step, naming]
  rw [split.readName_of_bodiless some noBrace] at stepped
  have done : (((scanner.pass (blanks.length + name.length)).named name).pass rest.length).ahead =
      [] := by
    rw [ahead_pass, split.ahead_named, List.drop_length]
  rw [run_of_step_eq_ok more stepped, run_of_ahead_eq_nil done]

/-- The opening brace begins the body of a definition. -/
theorem run_entering (naming : scanner.state = .inName)
    (split : NameAhead scanner.ahead blanks name (header ++ '\x7b' :: rest)) (some : name ≠ [])
    (noBrace : '\x7b' ∉ header) :
    run scanner =
      run (((scanner.pass (blanks.length + name.length)).named name).pass
        header.length).entering := by
  have more : scanner.ahead ≠ [] := by simp [split.split, some]
  have stepped : step scanner = readName scanner := by rw [step, naming]
  rw [split.readName_of_brace some noBrace] at stepped
  exact run_of_step_eq_ok more stepped

end Names

section Bodies

variable {kind : DefinitionKind} {offset : Nat}

/-- Without a closing brace, the rest of the text is passed. -/
theorem readBody_of_unclosed (unclosed : closingOffset? 0 scanner.ahead = none) :
    readBody scanner = .ok () (scanner.pass scanner.ahead.length) := by
  simp [readBody, unclosed]

/-- Without a closing brace, the definition that was begun is reported. -/
theorem outcome_unclosed (inside : scanner.state = .inBody) (more : scanner.ahead ≠ [])
    (unclosed : closingOffset? 0 scanner.ahead = none) :
    outcome scanner = (scanner.definitions, some (.unmatched scanner.name)) := by
  have stepped : step scanner = readBody scanner := by rw [step, inside]
  rw [readBody_of_unclosed unclosed] at stepped
  have done : (scanner.pass scanner.ahead.length).ahead = [] := by
    rw [ahead_pass, List.drop_length]
  have inBody : (scanner.pass scanner.ahead.length).state = .inBody := inside
  rw [outcome_congr (run_of_step_eq_ok more stepped), outcome_of_ahead_eq_nil done]
  simp only [conclude, inBody]
  rfl

/-- A scanner that has just passed the body of a definition. -/
def closed (scanner : Scanner) (kind : DefinitionKind) (offset : Nat) : Scanner :=
  { scanner.pass (offset + 1) with
    definitions := scanner.definitions ++
      [⟨kind, scanner.name, scanner.contentUpTo (scanner.index + (offset + 1))⟩]
    state := .scanning }

/-- The closing brace completes a definition. -/
theorem readBody_of_closed (begun : scanner.kind = some kind)
    (closes : closingOffset? 0 scanner.ahead = some offset) :
    readBody scanner = .ok () (scanner.closed kind offset) := by
  simp [readBody, closes, begun, closed, index_pass]

/-- Behind the closing brace, the scanner looks for the next definition. -/
theorem run_closed (inside : scanner.state = .inBody) (begun : scanner.kind = some kind)
    (closes : closingOffset? 0 scanner.ahead = some offset) :
    run scanner = run (scanner.closed kind offset) := by
  have more : scanner.ahead ≠ [] := by
    intro done
    simp [done, closingOffset?] at closes
  have stepped : step scanner = readBody scanner := by rw [step, inside]
  rw [readBody_of_closed begun closes] at stepped
  exact run_of_step_eq_ok more stepped

end Bodies

end Scanner

end QueryPrep.Source
