import QueryPrep.Proofs.Source.Resplitting

/-!
# Splitting one text after another

A scanner that looks for a keyword at the end of a text has found every definition that the text
begins: the text consists of complete definitions and of gaps without a keyword. So if another text
follows, the scanner comes to it just as if it had passed a gap.

What a scanner finds from there on depends on the text ahead only. The place where it stands shows
in one thing, the position that is reported for a missing name, which moves with the place.
-/

namespace QueryPrep.Source

open QueryPrep.Text Scanner

/-- The same error in a text that has more in front of it. -/
def SplitError.shift (distance : Nat) : SplitError → SplitError
  | .malformed position => .malformed (distance + position)
  | .unmatched name => .unmatched name
  | .notBegun => .notBegun

section Shifting

theorem SplitError.shift_zero (error : SplitError) : error.shift 0 = error := by
  cases error <;> simp [SplitError.shift]

theorem SplitError.shift_shift (error : SplitError) (first second : Nat) :
    (error.shift second).shift first = error.shift (first + second) := by
  cases error <;> simp [SplitError.shift, Nat.add_assoc]

theorem map_shift_zero (error? : Option SplitError) :
    error?.map (SplitError.shift 0) = error? := by
  cases error? <;> simp [SplitError.shift_zero]

theorem map_shift_map_shift (error? : Option SplitError) (first second : Nat) :
    (error?.map (SplitError.shift second)).map (SplitError.shift first) =
      error?.map (SplitError.shift (first + second)) := by
  cases error? <;> simp [SplitError.shift_shift]

end Shifting

section Gaps

variable {text gap rest first second : List Char} {definitions others : List RawDefinition}

/-- No keyword reaches beyond a blank. -/
theorem not_straddled_of_isBlank {letter : Char} (blank : isBlank letter = true) :
    ¬ Straddled text (letter :: rest) := by
  apply not_straddled_of_head
  intro other first kind member
  obtain rfl : letter = other := Option.some.inj first
  have visible := DefinitionKind.isBlank_of_mem_keyword (List.mem_of_mem_tail member)
  simp [blank] at visible

theorem keywordFree_nil : KeywordFree [] :=
  fun kind within => kind.keyword_ne_nil (List.infix_nil.mp within)

theorem KeywordFree.cons {letter : Char} (free : KeywordFree gap)
    (none : DefinitionKind.opening? (letter :: gap ++ rest) = none) :
    KeywordFree (letter :: gap) := by
  rw [DefinitionKind.opening?_eq_none_iff] at none
  intro kind within
  rcases List.infix_cons_iff.mp within with opens | later
  · exact none kind (opens.trans (List.prefix_append _ _))
  · exact free kind later

/-- A character that starts no keyword belongs to the gap in front of the first definition. -/
theorem Interleaves.cons {letter : Char} (interleaves : Interleaves text definitions)
    (none : DefinitionKind.opening? (letter :: text) = none) :
    Interleaves (letter :: text) definitions := by
  cases interleaves with
  | gap free =>
      rw [← List.append_nil (letter :: text)] at none
      exact .gap (free.cons none)
  | definition free standalone later =>
      rw [← List.cons_append]
      exact .definition (free.cons none) standalone later

theorem Interleaves.gap_append (interleaves : Interleaves text definitions)
    (free : KeywordFree gap) (apart : ¬ Straddled gap text) :
    Interleaves (gap ++ text) definitions := by
  induction gap with
  | nil => exact interleaves
  | cons letter gap ih =>
      have none := free.opening?_append (List.cons_ne_nil letter gap) apart
      exact (ih free.of_cons (not_straddled_of_cons apart)).cons none

theorem Interleaves.append (before : Interleaves first definitions)
    (behind : Interleaves second others) (apart : ¬ Straddled first second) :
    Interleaves (first ++ second) (definitions ++ others) := by
  induction before with
  | gap free => exact behind.gap_append free apart
  | definition free standalone later ih =>
      have laterApart := not_straddled_of_append (not_straddled_of_append apart)
      rw [List.append_assoc, List.append_assoc]
      exact .definition free standalone (ih laterApart)

end Gaps

namespace Scanner

variable {scanner other final : Scanner} {definitions : List RawDefinition}

/-- Splitting succeeds, and the scanner looks for a keyword when the text ends. -/
def EndsScanning (scanner : Scanner) (definitions : List RawDefinition) : Prop :=
  ∃ final, split scanner = .ok definitions final ∧ final.state = .scanning

instance (scanner : Scanner) (definitions : List RawDefinition) :
    Decidable (EndsScanning scanner definitions) :=
  match result : split scanner with
  | .ok found final =>
      decidable_of_iff (found = definitions ∧ final.state = .scanning)
        (by simp [EndsScanning, result])
  | .error _ _ => isFalse (by simp [EndsScanning, result])

theorem EndsScanning.congr (same : run scanner = run other) :
    EndsScanning scanner definitions ↔ EndsScanning other definitions := by
  rw [EndsScanning, EndsScanning, split, split, same]

theorem EndsScanning.outcome_eq (ends : EndsScanning scanner definitions) :
    outcome scanner = (definitions, none) := by
  rcases ends with ⟨final, found, _⟩
  rw [outcome, found]

theorem EndsScanning.of_run_eq (ends : EndsScanning scanner definitions)
    (ran : run scanner = .ok () final) :
    final.state = .scanning ∧ definitions = final.definitions := by
  rcases ends with ⟨last, found, scanning⟩
  rw [split, ran] at found
  cases concluded : final.conclude with
  | error error => simp [concluded] at found
  | ok result =>
      simp only [concluded, EStateM.Result.ok.injEq] at found
      rcases found with ⟨rfl, rfl⟩
      rw [conclude, scanning, Except.ok.injEq] at concluded
      exact ⟨scanning, concluded.symm⟩

/-- A text that is left with nothing begun consists of complete definitions and of gaps. -/
theorem EndsScanning.exists_interleaves (ends : EndsScanning scanner definitions)
    (scanning : scanner.state = .scanning) :
    ∃ found, definitions = scanner.definitions ++ found ∧ Interleaves scanner.ahead found := by
  induction scanning using scanning_induction with
  | ended scanning done =>
      have whole := (ends.of_run_eq (run_of_ahead_eq_nil done)).2
      refine ⟨[], by simpa using whole, ?_⟩
      rw [done]
      exact .gap keywordFree_nil
  | @plain scanner scanning more none ih =>
      rcases ih ((EndsScanning.congr (run_pass_one scanning more none)).mp ends) with
        ⟨found, whole, interleaves⟩
      refine ⟨found, whole, ?_⟩
      rcases List.exists_cons_of_ne_nil more with ⟨letter, rest, ahead⟩
      rw [ahead] at none ⊢
      rw [ahead_pass, ahead] at interleaves
      exact interleaves.cons none
  -- In the next three cases the scanner is left with an error, or behind a name.
  | unnamed scanning split named =>
      have failed := outcome_of_unnamed scanning split named
      simp [ends.outcome_eq] at failed
  | bodiless scanning split named present noBrace =>
      rcases exists_run_of_bodiless scanning split named present noBrace with
        ⟨final, ran, naming, _⟩
      have stillScanning := (ends.of_run_eq ran).1
      simp [naming] at stillScanning
  | unclosed scanning split named present noBrace noEnd =>
      have failed := outcome_of_unclosed scanning split named present noBrace noEnd
      simp [ends.outcome_eq] at failed
  | @definition scanner scanning definition _ _ _ rest split layout ih =>
      rcases ih ((EndsScanning.congr (run_of_definition scanning split layout)).mp ends) with
        ⟨found, whole, interleaves⟩
      refine ⟨definition :: found, ?_, ?_⟩
      · rw [whole, collected, List.append_assoc]
        rfl
      · rw [ahead_collected split] at interleaves
        rw [split]
        exact .definition keywordFree_nil ⟨_, _, _, layout⟩ interleaves

/--
What there is to find in a text by a scanner that looks for a keyword, wherever it stands and
whatever it has found before.
-/
def Holds (text : List Char) (definitions : List RawDefinition) (error? : Option SplitError) :
    Prop :=
  ∀ scanner : Scanner, scanner.state = .scanning → scanner.ahead = text →
    outcome scanner = (scanner.definitions ++ definitions, error?.map (·.shift scanner.index))

theorem exists_holds (scanning : scanner.state = .scanning) :
    ∃ definitions error?, Holds scanner.ahead definitions error? := by
  -- The scanner stands for its text only; each shape of the text is read by any other scanner.
  induction scanning using scanning_induction with
  | ended scanning done =>
      refine ⟨[], none, ?_⟩
      intro other otherScanning same
      rw [outcome_of_ahead_eq_nil (same.trans done), conclude, otherScanning]
      simp
  | @plain scanner scanning more none ih =>
      rcases ih with ⟨definitions, error?, holds⟩
      refine ⟨definitions, error?.map (·.shift 1), ?_⟩
      intro other otherScanning same
      have later := holds (other.pass 1) otherScanning (by rw [ahead_pass, same, ahead_pass])
      rw [outcome_pass_one otherScanning (same ▸ more) (same ▸ none), later, map_shift_map_shift]
      rfl
  | @unnamed scanner scanning kind _ blanks _ split named =>
      refine ⟨[], some (.malformed (kind.keyword.length + blanks.length)), ?_⟩
      intro other otherScanning same
      rw [outcome_of_unnamed otherScanning (same.trans split) named]
      simp [SplitError.shift, Nat.add_assoc]
  | bodiless scanning split named present noBrace =>
      refine ⟨[], none, ?_⟩
      intro other otherScanning same
      rw [outcome_of_bodiless otherScanning (same.trans split) named present noBrace]
      simp
  | @unclosed scanner scanning _ _ _ name _ _ split named present noBrace noEnd =>
      refine ⟨[], some (.unmatched (String.ofList name)), ?_⟩
      intro other otherScanning same
      rw [outcome_of_unclosed otherScanning (same.trans split) named present noBrace noEnd]
      simp [SplitError.shift]
  | @definition scanner scanning definition _ _ _ rest split layout ih =>
      rcases ih with ⟨definitions, error?, holds⟩
      refine ⟨definition :: definitions,
        error?.map (·.shift definition.content.toList.length), ?_⟩
      intro other otherScanning same
      have otherSplit := same.trans split
      have later := holds (other.collected definition) rfl
        (by rw [ahead_collected otherSplit, ahead_collected split])
      rw [outcome_of_definition otherScanning otherSplit layout, later, map_shift_map_shift,
        collected, List.append_assoc]
      rfl

end Scanner

section Texts

variable {first second : String} {definitions : List RawDefinition}

theorem interleaves_of_endsScanning (ends : (ofText first).EndsScanning definitions) :
    Interleaves first.toList definitions := by
  rcases ends.exists_interleaves rfl with ⟨found, whole, interleaves⟩
  obtain rfl : definitions = found := whole
  exact interleaves

/--
If nothing is begun where one text ends and the other begins, splitting both together comes to what
splitting the second comes to, an error or not, behind the definitions of the first. Positions are
counted from the start of the first.
-/
theorem outcome_append (ends : (ofText first).EndsScanning definitions)
    (apart : ¬ Straddled first.toList second.toList) :
    (ofText (first ++ second)).outcome =
      (definitions ++ (ofText second).outcome.1,
        (ofText second).outcome.2.map (·.shift first.length)) := by
  have split : (ofText (first ++ second)).ahead = first.toList ++ second.toList :=
    String.toList_append
  rcases (interleaves_of_endsScanning ends).exists_passes rfl split apart with ⟨behind, passes⟩
  have atSecond := passes.ahead_eq split
  have place : behind.index = first.length := by
    rw [passes.index, String.length_toList]
    exact Nat.zero_add _
  have scanning : (ofText second).state = .scanning := rfl
  rcases exists_holds scanning with ⟨found, error?, holds⟩
  have whole := holds behind passes.scanning atSecond
  have alone := holds (ofText second) scanning rfl
  rw [outcome_congr passes.run_eq, whole, alone, passes.found, place]
  simp only [ofText, List.nil_append, map_shift_zero]

/-- Behind its definition this text ends like the beginning of a keyword. -/
def noteText : String := "query Note \x7b n \x7d \x7d quer"

/-- The last keyword of this text has no name. -/
def tagText : String := " y fragment Tag on T \x7b t \x7d query  \x7b"

def noteDefinition : RawDefinition := ⟨.query, "Note", "query Note \x7b n \x7d"⟩

def tagDefinition : RawDefinition := ⟨.fragment, "Tag", "fragment Tag on T \x7b t \x7d"⟩

theorem outcome_append_noteText :
    (ofText noteText).EndsScanning [noteDefinition] ∧
      ¬ Straddled noteText.toList tagText.toList ∧
      (ofText tagText).outcome = ([tagDefinition], some (.malformed 34)) ∧
      (ofText (noteText ++ tagText)).outcome =
        ([noteDefinition, tagDefinition], some (.malformed 57)) := by
  have ends : (ofText noteText).EndsScanning [noteDefinition] := by decide +kernel
  have apart : ¬ Straddled noteText.toList tagText.toList := by
    have begins : tagText.toList = ' ' :: tagText.toList.tail := by decide +kernel
    rw [begins]
    exact not_straddled_of_isBlank (by decide)
  have alone : (ofText tagText).outcome = ([tagDefinition], some (.malformed 34)) := by
    decide +kernel
  refine ⟨ends, apart, alone, ?_⟩
  rw [outcome_append ends apart, alone]
  decide +kernel

end Texts

end QueryPrep.Source
