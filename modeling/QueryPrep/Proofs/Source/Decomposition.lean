import QueryPrep.Proofs.Source.Standalone
import Mathlib.Order.Lattice.Nat
import Mathlib.Order.Bounds.Image

/-!
# The leftmost decomposition of a text

What splitting does can be said without a scanner, by positions in the text. A definition starts at
the first position where a keyword does, its name is the longest run of name characters after the
blanks behind the keyword, and its body reaches from the next opening brace to the first position
up to which there are as many closing braces as opening ones. The search goes on behind it.

At every point the position is the least one of its kind, so a text has one decomposition only.
This file shows that a scanner finds it, with the definitions before an error as well.
-/

namespace QueryPrep.Source

open QueryPrep.Graphql QueryPrep.Text

/-- The first position from `start` on that has the property. -/
def FirstFrom (start : Nat) (holds : Nat → Prop) (position : Nat) : Prop :=
  IsLeast {candidate | start ≤ candidate ∧ holds candidate} position

/-- The keyword of the kind stands at the position. -/
def KeywordAt (text : List Char) (kind : DefinitionKind) (position : Nat) : Prop :=
  kind.keyword.toList <+: text.drop position

/-- A character of the given sort stands at the position. -/
def CharAt (text : List Char) (sort : Char → Bool) (position : Nat) : Prop :=
  ∃ character ∈ text[position]?, sort character = true

/-- The name is the longest run of name characters from the position on. -/
structure NameAt (text : List Char) (position : Nat) (name : List Char) : Prop where
  occurs : name <+: text.drop position
  nameLike : ∀ character ∈ name, isNameContinue character = true
  maximal : ¬ CharAt text isNameContinue (position + name.length)

/-- From one position up to the other, that one included, both braces occur equally often. -/
def BalancedUpTo (text : List Char) (start position : Nat) : Prop :=
  position < text.length ∧
    ((text.drop start).take (position + 1 - start)).count '\x7b' =
      ((text.drop start).take (position + 1 - start)).count '\x7d'

/-- The first keyword from `start` on, and the name after it. It is empty if there is none. -/
structure HeaderAt (text : List Char) (start : Nat) (kind : DefinitionKind) (opening nameAt : Nat)
    (name : List Char) : Prop where
  first : FirstFrom start (fun position => ∃ kind, KeywordAt text kind position) opening
  keyword : KeywordAt text kind opening
  visible : FirstFrom (opening + kind.keyword.length)
    (fun position => ¬ CharAt text isBlank position) nameAt
  named : NameAt text nameAt name

/--
The definitions of a text from a position on, and the error that ends them, if any. A keyword
without a name and a body without an end are errors; a definition without a body ends the text
silently.
-/
inductive Decomposes (text : List Char) : Nat → List RawDefinition → Option SplitError → Prop
  | exhausted {start : Nat} (without : ∀ position, start ≤ position →
      ∀ kind, ¬ KeywordAt text kind position) : Decomposes text start [] none
  | unnamed {start opening nameAt : Nat} {kind : DefinitionKind}
      (header : HeaderAt text start kind opening nameAt []) :
      Decomposes text start [] (some (.malformed nameAt))
  | bodiless {start opening nameAt : Nat} {kind : DefinitionKind} {name : List Char}
      (header : HeaderAt text start kind opening nameAt name) (present : name ≠ [])
      (without : ∀ position, nameAt + name.length ≤ position → text[position]? ≠ some '\x7b') :
      Decomposes text start [] none
  | unclosed {start opening nameAt bodyAt : Nat} {kind : DefinitionKind} {name : List Char}
      (header : HeaderAt text start kind opening nameAt name) (present : name ≠ [])
      (body : FirstFrom (nameAt + name.length)
        (fun position => text[position]? = some '\x7b') bodyAt)
      (without : ∀ position, bodyAt ≤ position → ¬ BalancedUpTo text bodyAt position) :
      Decomposes text start [] (some (.unmatched (String.ofList name)))
  | definition {start opening nameAt bodyAt closing : Nat} {kind : DefinitionKind}
      {name : List Char} {definitions : List RawDefinition} {error? : Option SplitError}
      (header : HeaderAt text start kind opening nameAt name) (present : name ≠ [])
      (body : FirstFrom (nameAt + name.length)
        (fun position => text[position]? = some '\x7b') bodyAt)
      (closed : FirstFrom bodyAt (BalancedUpTo text bodyAt) closing)
      (rest : Decomposes text (closing + 1) definitions error?) :
      Decomposes text start
        (⟨kind, String.ofList name,
          String.ofList ((text.drop opening).take (closing + 1 - opening))⟩ :: definitions) error?

section Positions

variable {start position offset : Nat} {holds : Nat → Prop} {text run rest : List Char}

theorem firstFrom_add_iff :
    FirstFrom start holds (start + offset) ↔ IsLeast {count | holds (start + count)} offset := by
  constructor
  · rintro ⟨⟨_, here⟩, least⟩
    refine ⟨here, ?_⟩
    intro count there
    have later := least ⟨Nat.le_add_right start count, there⟩
    omega
  · rintro ⟨here, least⟩
    refine ⟨⟨Nat.le_add_right start offset, here⟩, ?_⟩
    rintro candidate ⟨later, there⟩
    have there : holds (start + (candidate - start)) := by rwa [Nat.add_sub_cancel' later]
    have earliest := least there
    omega

theorem FirstFrom.unique {other : Nat} (first : FirstFrom start holds position)
    (second : FirstFrom start holds other) : position = other :=
  IsLeast.unique first second

theorem getElem?_add_of_drop_eq (split : text.drop start = run) (count : Nat) :
    text[start + count]? = run[count]? := by
  rw [← split, List.getElem?_drop]

theorem firstFrom_of_stop (stop : Option Char → Prop) (split : text.drop start = run ++ rest)
    (passed : ∀ character ∈ run, ¬ stop (some character)) (stops : stop rest.head?) :
    FirstFrom start (fun position => stop text[position]?) (start + run.length) := by
  rw [firstFrom_add_iff]
  simp only [getElem?_add_of_drop_eq split]
  constructor
  · rw [Set.mem_ofPred_eq, List.getElem?_append_right (Nat.le_refl _), Nat.sub_self,
      ← List.head?_eq_getElem?]
    exact stops
  · intro count there
    by_contra early
    have within : count < run.length := Nat.lt_of_not_le early
    rw [Set.mem_ofPred_eq, List.getElem?_append_left within,
      List.getElem?_eq_getElem within] at there
    exact passed _ (List.getElem_mem within) there

theorem firstFrom_of_append {sort : Char → Bool} (split : text.drop start = run ++ rest)
    (passed : ∀ character ∈ run, sort character = true)
    (stops : ∀ character ∈ rest.head?, sort character = false) :
    FirstFrom start (fun position => ¬ CharAt text sort position) (start + run.length) := by
  apply firstFrom_of_stop (fun found => ¬ ∃ character ∈ found, sort character = true) split
  · intro character member other
    exact other ⟨character, rfl, passed character member⟩
  · rintro ⟨character, first, sorted⟩
    simp [stops character first] at sorted

theorem firstFrom_brace_of_append (split : text.drop start = run ++ '\x7b' :: rest)
    (noBrace : '\x7b' ∉ run) :
    FirstFrom start (fun position => text[position]? = some '\x7b') (start + run.length) := by
  apply firstFrom_of_stop (fun found => found = some '\x7b') split
  · intro character member same
    exact noBrace (Option.some.inj same ▸ member)
  · rfl

theorem drop_add_of_append (split : text.drop start = run ++ rest) :
    text.drop (start + run.length) = rest := by
  rw [← List.drop_drop, split, List.drop_left]

end Positions

section Headers

variable {text ahead blanks name rest : List Char} {start opening : Nat} {kind : DefinitionKind}

theorem firstFrom_self {holds : Nat → Prop} (here : holds start) : FirstFrom start holds start :=
  ⟨⟨Nat.le_refl start, here⟩, fun _ later => later.1⟩

theorem drop_keyword (split : text.drop start = kind.keyword.toList ++ ahead) :
    text.drop (start + kind.keyword.length) = ahead := by
  rw [← String.length_toList]
  exact drop_add_of_append split

theorem drop_header (split : text.drop start = kind.keyword.toList ++ ahead)
    (named : Scanner.NameAhead ahead blanks name rest) :
    text.drop (start + kind.keyword.length + blanks.length + name.length) = rest := by
  apply drop_add_of_append
  apply drop_add_of_append
  rw [drop_keyword split, named.split]

theorem headerAt_of_nameAhead (split : text.drop start = kind.keyword.toList ++ ahead)
    (named : Scanner.NameAhead ahead blanks name rest) :
    HeaderAt text start kind start (start + kind.keyword.length + blanks.length) name := by
  have keyword : KeywordAt text kind start := by
    rw [KeywordAt, split]
    exact List.prefix_append _ _
  have behind := (drop_keyword split).trans named.split
  have here := drop_add_of_append behind
  refine ⟨firstFrom_self ⟨kind, keyword⟩, keyword,
    firstFrom_of_append behind named.blank named.visible, here ▸ List.prefix_append name rest,
    named.nameLike, ?_⟩
  rintro ⟨character, follows, continues⟩
  rw [← Nat.add_zero (_ + name.length), getElem?_add_of_drop_eq (drop_header split named),
    ← List.head?_eq_getElem?] at follows
  simp [named.maximal character follows] at continues

theorem HeaderAt.of_later {nameAt : Nat} (without : ∀ kind, ¬ KeywordAt text kind start)
    (header : HeaderAt text (start + 1) kind opening nameAt name) :
    HeaderAt text start kind opening nameAt name where
  first := by
    rcases header.first with ⟨⟨later, here⟩, least⟩
    refine ⟨⟨Nat.le_of_succ_le later, here⟩, ?_⟩
    rintro candidate ⟨reached, kind, there⟩
    apply least
    refine ⟨Nat.lt_of_le_of_ne reached ?_, kind, there⟩
    rintro rfl
    exact without kind there
  keyword := header.keyword
  visible := header.visible
  named := header.named

/-- Where no keyword starts, the search may as well begin one character later. -/
theorem Decomposes.of_later {definitions : List RawDefinition} {error? : Option SplitError}
    (without : ∀ kind, ¬ KeywordAt text kind start)
    (later : Decomposes text (start + 1) definitions error?) :
    Decomposes text start definitions error? := by
  cases later with
  | exhausted withoutLater =>
      apply Decomposes.exhausted
      intro position reached
      rcases Nat.eq_or_lt_of_le reached with rfl | further
      · exact without
      · exact withoutLater position further
  | unnamed header => exact .unnamed (header.of_later without)
  | bodiless header present noBody => exact .bodiless (header.of_later without) present noBody
  | unclosed header present body noEnd =>
      exact .unclosed (header.of_later without) present body noEnd
  | definition header present body closed rest =>
      exact .definition (header.of_later without) present body closed rest

end Headers

open Scanner

section Braces

variable {depth : Int} {character : Char} {text rest : List Char} {start offset : Nat}

/-- The offsets up to which a text closes `depth` braces more than it opens. -/
def closingOffsets (depth : Int) (text : List Char) : Set Nat :=
  {offset | offset < text.length ∧
    depth + (text.take (offset + 1)).count '\x7b' = (text.take (offset + 1)).count '\x7d'}

theorem depthChange_eq_count (character : Char) :
    depthChange character =
      (([character].count '\x7b' : Nat) : Int) - ([character].count '\x7d' : Nat) := by
  by_cases opens : character = '\x7b'
  · simp [depthChange, opens]
  by_cases closes : character = '\x7d'
  · simp [depthChange, closes]
  · simp [depthChange, opens, closes]

theorem zero_mem_closingOffsets_cons_iff :
    0 ∈ closingOffsets depth (character :: rest) ↔ depth + depthChange character = 0 := by
  simp only [closingOffsets, Set.mem_ofPred_eq, List.length_cons,
    List.take_succ_cons, List.take_zero, depthChange_eq_count]
  omega

theorem succ_mem_closingOffsets_cons_iff :
    offset + 1 ∈ closingOffsets depth (character :: rest) ↔
      offset ∈ closingOffsets (depth + depthChange character) rest := by
  have count : ∀ brace : Char, (character :: rest.take (offset + 1)).count brace =
      [character].count brace + (rest.take (offset + 1)).count brace := by
    intro brace
    rw [← List.singleton_append, List.count_append]
  simp only [closingOffsets, Set.mem_ofPred_eq, List.length_cons, List.take_succ_cons, count,
    depthChange_eq_count]
  omega

theorem closingOffsets_cons (unfinished : depth + depthChange character ≠ 0) :
    closingOffsets depth (character :: rest) =
      Nat.succ '' closingOffsets (depth + depthChange character) rest := by
  ext offset
  cases offset with
  | zero => simp [zero_mem_closingOffsets_cons_iff, unfinished]
  | succ offset => simp [succ_mem_closingOffsets_cons_iff]

/-- The offset that is found is the least one, and none is found only where there is none. -/
def FindsClosing (depth : Int) (text : List Char) : Prop :=
  match closingOffset? depth text with
  | some offset => IsLeast (closingOffsets depth text) offset
  | none => closingOffsets depth text = ∅

/-- A closing brace that is the last one to be closed. -/
theorem depth_add_depthChange_of_last (last : character = '\x7d' ∧ depth = 1) :
    depth + depthChange character = 0 := by
  rw [last.1, last.2]
  decide

theorem last_of_depth_add_depthChange (inside : 0 < depth)
    (finished : depth + depthChange character = 0) : character = '\x7d' ∧ depth = 1 := by
  unfold depthChange at finished
  split at finished
  case isTrue => omega
  case isFalse =>
    split at finished
    case isTrue closes => exact ⟨closes, by omega⟩
    case isFalse => omega

/-- A single character cannot take the depth below zero. -/
theorem depth_add_depthChange_nonneg (inside : 0 < depth) :
    0 ≤ depth + depthChange character := by
  unfold depthChange
  split
  case isTrue => omega
  case isFalse => split <;> omega

theorem FindsClosing.cons (unfinished : depth + depthChange character ≠ 0)
    (below : FindsClosing (depth + depthChange character) rest) :
    FindsClosing depth (character :: rest) := by
  have notLast := fun last => unfinished (depth_add_depthChange_of_last last)
  rw [FindsClosing, closingOffset?_cons, if_neg notLast, closingOffsets_cons unfinished]
  rw [FindsClosing] at below
  cases closes : closingOffset? (depth + depthChange character) rest with
  | none =>
      rw [closes] at below
      simp [below]
  | some offset =>
      rw [closes] at below
      exact Monotone.map_isLeast (fun _ _ => Nat.succ_le_succ) below

theorem findsClosing_of_inside (inside : 0 < depth) (text : List Char) :
    FindsClosing depth text := by
  induction text generalizing depth with
  | nil => simp [FindsClosing, closingOffset?, closingOffsets]
  | cons character rest ih =>
      by_cases finished : depth + depthChange character = 0
      · have last := last_of_depth_add_depthChange inside finished
        rw [FindsClosing, closingOffset?_cons, if_pos last]
        refine ⟨zero_mem_closingOffsets_cons_iff.mpr finished, ?_⟩
        intro offset _
        exact Nat.zero_le offset
      · have nonneg : 0 ≤ depth + depthChange character := depth_add_depthChange_nonneg inside
        apply FindsClosing.cons finished
        apply ih
        omega

/-- The opening brace leads inside. -/
theorem findsClosing_brace (rest : List Char) : FindsClosing 0 ('\x7b' :: rest) := by
  have inside : 0 < 0 + depthChange '\x7b' := by decide
  exact .cons (Int.ne_of_gt inside) (findsClosing_of_inside inside rest)

theorem balancedUpTo_add_iff :
    BalancedUpTo text start (start + offset) ↔ offset ∈ closingOffsets 0 (text.drop start) := by
  have distance : start + offset + 1 - start = offset + 1 := by omega
  simp only [BalancedUpTo, closingOffsets, Set.mem_ofPred_eq, List.length_drop, distance]
  omega

theorem firstFrom_of_closingOffset? (opens : text.drop start = '\x7b' :: rest)
    (closes : closingOffset? 0 (text.drop start) = some offset) :
    FirstFrom start (BalancedUpTo text start) (start + offset) := by
  have least := findsClosing_brace rest
  rw [FindsClosing, ← opens, closes] at least
  rw [firstFrom_add_iff]
  simp only [balancedUpTo_add_iff]
  exact least

theorem not_balancedUpTo_of_closingOffset? (opens : text.drop start = '\x7b' :: rest)
    (unclosed : closingOffset? 0 (text.drop start) = none) :
    ∀ position, start ≤ position → ¬ BalancedUpTo text start position := by
  have empty := findsClosing_brace rest
  rw [FindsClosing, ← opens, unclosed] at empty
  intro position reached balanced
  rw [← Nat.add_sub_cancel' reached, balancedUpTo_add_iff, empty] at balanced
  exact balanced

end Braces

section Existence

variable {scanner : Scanner}

theorem not_keywordAt_of_none (none : DefinitionKind.opening? scanner.ahead = none) :
    ∀ kind, ¬ KeywordAt scanner.text kind scanner.index := by
  rw [scanner.ahead_eq] at none
  exact DefinitionKind.opening?_eq_none_iff.mp none

theorem decomposes_of_ahead_eq_nil (done : scanner.ahead = []) :
    Decomposes scanner.text scanner.index [] none := by
  apply Decomposes.exhausted
  intro position reached kind keyword
  have beyond : scanner.text.length ≤ scanner.index := by
    by_contra within
    exact ahead_ne_nil_iff.mpr (Nat.lt_of_not_le within) done
  rw [KeywordAt, List.drop_of_length_le (Nat.le_trans beyond reached), List.prefix_nil] at keyword
  exact kind.keyword_ne_nil keyword

theorem not_brace_of_drop_eq {text rest : List Char} {start : Nat} (split : text.drop start = rest)
    (noBrace : '\x7b' ∉ rest) :
    ∀ position, start ≤ position → text[position]? ≠ some '\x7b' := by
  intro position reached here
  rw [← Nat.add_sub_cancel' reached, getElem?_add_of_drop_eq split] at here
  exact noBrace (List.mem_of_getElem? here)

theorem decomposes_definition {text rest blanks header inner : List Char} {start : Nat}
    {definition : RawDefinition} {definitions : List RawDefinition} {error? : Option SplitError}
    (split : text.drop start = definition.content.toList ++ rest)
    (layout : LaidOut definition blanks header inner)
    (later : Decomposes text (start + definition.content.toList.length) definitions error?) :
    Decomposes text start (definition :: definitions) error? := by
  have parts := split.trans (layout.content_append rest)
  have named := layout.named_append rest
  have drop := drop_header parts named
  have body := drop_add_of_append drop
  have closes := layout.closes_append rest
  rw [← body] at closes
  let bodyAt := start + definition.kind.keyword.length + blanks.length +
    definition.name.toList.length + header.length
  have ended : bodyAt + inner.length + 1 = start + definition.content.toList.length := by
    rw [layout.length_content]
    omega
  have content : (text.drop start).take (bodyAt + inner.length + 1 - start) =
      definition.content.toList := by
    rw [ended, Nat.add_sub_cancel_left, split, List.take_left]
  have decomposes := Decomposes.definition (headerAt_of_nameAhead parts named) layout.present
    (firstFrom_brace_of_append drop layout.noBrace) (firstFrom_of_closingOffset? body closes)
    (ended ▸ later)
  simp only [String.ofList_toList] at decomposes
  rwa [content, String.ofList_toList] at decomposes

theorem exists_decomposes (scanning : scanner.state = .scanning) :
    ∃ definitions error?, Decomposes scanner.text scanner.index definitions error? ∧
      outcome scanner = (scanner.definitions ++ definitions, error?) := by
  -- What lies ahead is the text from the index on, so every shape is one way to decompose it.
  induction scanning using scanning_induction with
  | ended scanning done =>
      refine ⟨[], none, decomposes_of_ahead_eq_nil done, ?_⟩
      rw [List.append_nil, outcome_of_ahead_eq_nil done, conclude, scanning]
  | plain scanning more none ih =>
      rcases ih with ⟨definitions, error?, decomposes, comes⟩
      refine ⟨definitions, error?, decomposes.of_later (not_keywordAt_of_none none), ?_⟩
      rw [outcome_pass_one scanning more none, comes]
      rfl
  | @unnamed scanner scanning _ _ _ _ split named =>
      have place := scanner.ahead_eq.symm.trans split
      refine ⟨[], _, .unnamed (headerAt_of_nameAhead place named), ?_⟩
      rw [List.append_nil, outcome_of_unnamed scanning split named]
  | @bodiless scanner scanning _ _ _ _ _ split named present noBrace =>
      have place := scanner.ahead_eq.symm.trans split
      refine ⟨[], none, .bodiless (headerAt_of_nameAhead place named) present
        (not_brace_of_drop_eq (drop_header place named) noBrace), ?_⟩
      rw [List.append_nil, outcome_of_bodiless scanning split named present noBrace]
  | @unclosed scanner scanning _ _ _ _ _ _ split named present noBrace noEnd =>
      have place := scanner.ahead_eq.symm.trans split
      have drop := drop_header place named
      have body := drop_add_of_append drop
      refine ⟨[], _, .unclosed (headerAt_of_nameAhead place named) present
        (firstFrom_brace_of_append drop noBrace)
        (not_balancedUpTo_of_closingOffset? body (body ▸ noEnd)), ?_⟩
      rw [List.append_nil, outcome_of_unclosed scanning split named present noBrace noEnd]
  | @definition scanner scanning definition _ _ _ _ split layout ih =>
      have place := scanner.ahead_eq.symm.trans split
      rcases ih with ⟨definitions, error?, decomposes, comes⟩
      refine ⟨definition :: definitions, error?,
        decomposes_definition place layout decomposes, ?_⟩
      rw [outcome_of_definition scanning split layout, comes, collected, List.append_assoc]
      rfl

end Existence

section Uniqueness

variable {text name otherName : List Char} {start opening otherOpening nameAt otherNameAt : Nat}
variable {kind otherKind : DefinitionKind} {definitions others : List RawDefinition}
variable {error? otherError? : Option SplitError}

theorem NameAt.length_le (shorter : NameAt text nameAt name)
    (longer : NameAt text nameAt otherName) : otherName.length ≤ name.length := by
  by_contra more
  have further : name.length < otherName.length := Nat.lt_of_not_le more
  apply shorter.maximal
  refine ⟨otherName[name.length], ?_, longer.nameLike _ (List.getElem_mem further)⟩
  rcases longer.occurs with ⟨rest, split⟩
  rw [getElem?_add_of_drop_eq split.symm, List.getElem?_append_left further]
  exact List.getElem?_eq_getElem further

theorem NameAt.unique (first : NameAt text nameAt name) (second : NameAt text nameAt otherName) :
    name = otherName := by
  have length := Nat.le_antisymm (second.length_le first) (first.length_le second)
  exact (List.prefix_of_prefix_length_le first.occurs second.occurs length.le).eq_of_length length

theorem HeaderAt.unique (first : HeaderAt text start kind opening nameAt name)
    (second : HeaderAt text start otherKind otherOpening otherNameAt otherName) :
    kind = otherKind ∧ opening = otherOpening ∧ nameAt = otherNameAt ∧ name = otherName := by
  have sameOpening := first.first.unique second.first
  subst otherOpening
  have sameKind := DefinitionKind.eq_of_opens first.keyword second.keyword
  subst otherKind
  have sameNameAt := first.visible.unique second.visible
  subst otherNameAt
  exact ⟨rfl, rfl, rfl, first.named.unique second.named⟩

/-- What a decomposition comes to at a keyword is decided by the text behind the name. -/
theorem Decomposes.at_header (header : HeaderAt text start kind opening nameAt name)
    (decomposes : Decomposes text start definitions error?) :
    (name = [] ∧ definitions = [] ∧ error? = some (.malformed nameAt)) ∨
    (name ≠ [] ∧
      (∀ position, nameAt + name.length ≤ position → text[position]? ≠ some '\x7b') ∧
      definitions = [] ∧ error? = none) ∨
    (name ≠ [] ∧ ∃ bodyAt, FirstFrom (nameAt + name.length)
        (fun position => text[position]? = some '\x7b') bodyAt ∧
      (∀ position, bodyAt ≤ position → ¬ BalancedUpTo text bodyAt position) ∧
      definitions = [] ∧ error? = some (.unmatched (String.ofList name))) ∨
    (name ≠ [] ∧ ∃ bodyAt closing rest, FirstFrom (nameAt + name.length)
        (fun position => text[position]? = some '\x7b') bodyAt ∧
      FirstFrom bodyAt (BalancedUpTo text bodyAt) closing ∧
      Decomposes text (closing + 1) rest error? ∧
      definitions = ⟨kind, String.ofList name,
        String.ofList ((text.drop opening).take (closing + 1 - opening))⟩ :: rest) := by
  cases decomposes with
  | exhausted without => exact absurd header.keyword (without opening header.first.1.1 kind)
  | unnamed other =>
      rcases header.unique other with ⟨rfl, rfl, rfl, rfl⟩
      exact .inl ⟨rfl, rfl, rfl⟩
  | bodiless other present without =>
      rcases header.unique other with ⟨rfl, rfl, rfl, rfl⟩
      exact .inr (.inl ⟨present, without, rfl, rfl⟩)
  | unclosed other present body without =>
      rcases header.unique other with ⟨rfl, rfl, rfl, rfl⟩
      exact .inr (.inr (.inl ⟨present, _, body, without, rfl, rfl⟩))
  | definition other present body closed rest =>
      rcases header.unique other with ⟨rfl, rfl, rfl, rfl⟩
      exact .inr (.inr (.inr ⟨present, _, _, _, body, closed, rest, rfl⟩))

theorem Decomposes.of_exhausted
    (without : ∀ position, start ≤ position → ∀ kind, ¬ KeywordAt text kind position)
    (decomposes : Decomposes text start definitions error?) :
    definitions = [] ∧ error? = none := by
  have noHeader : ∀ {kind opening nameAt name}, ¬ HeaderAt text start kind opening nameAt name :=
    fun header => without _ header.first.1.1 _ header.keyword
  cases decomposes with
  | exhausted => exact ⟨rfl, rfl⟩
  | unnamed header => exact absurd header noHeader
  | bodiless header => exact absurd header noHeader
  | unclosed header => exact absurd header noHeader
  | definition header => exact absurd header noHeader

theorem Decomposes.unique (first : Decomposes text start definitions error?)
    (second : Decomposes text start others otherError?) :
    definitions = others ∧ error? = otherError? := by
  -- Both take the same header; behind it, each way to go on rules the other ways out.
  induction first generalizing others with
  | exhausted without =>
      rcases second.of_exhausted without with ⟨rfl, rfl⟩
      exact ⟨rfl, rfl⟩
  | unnamed header =>
      rcases second.at_header header with ⟨_, rfl, rfl⟩ | ⟨present, _⟩ | ⟨present, _⟩ | ⟨present, _⟩
      · exact ⟨rfl, rfl⟩
      all_goals exact absurd rfl present
  | bodiless header present without =>
      rcases second.at_header header with ⟨absent, _⟩ | ⟨_, _, rfl, rfl⟩ | ⟨_, _, body, _⟩ |
        ⟨_, _, _, _, body, _⟩
      · exact absurd absent present
      · exact ⟨rfl, rfl⟩
      all_goals exact absurd body.1.2 (without _ body.1.1)
  | unclosed header present body without =>
      rcases second.at_header header with ⟨absent, _⟩ | ⟨_, noBody, _⟩ |
        ⟨_, _, other, _, rfl, rfl⟩ | ⟨_, _, _, _, other, closed, _⟩
      · exact absurd absent present
      · exact absurd body.1.2 (noBody _ body.1.1)
      · exact ⟨rfl, rfl⟩
      · have same := body.unique other
        subst same
        exact absurd closed.1.2 (without _ closed.1.1)
  | definition header present body closed rest ih =>
      rcases second.at_header header with ⟨absent, _⟩ | ⟨_, noBody, _⟩ | ⟨_, _, other, noEnd, _⟩ |
        ⟨_, _, _, _, other, otherClosed, otherRest, rfl⟩
      · exact absurd absent present
      · exact absurd body.1.2 (noBody _ body.1.1)
      · have same := body.unique other
        subst same
        exact absurd closed.1.2 (noEnd _ closed.1.1)
      · have same := body.unique other
        subst same
        have sameEnd := closed.unique otherClosed
        subst sameEnd
        rcases ih otherRest with ⟨rfl, rfl⟩
        exact ⟨rfl, rfl⟩

end Uniqueness

/--
A scanner comes to the definitions and the error of the decomposition of its text, whether there is
an error or not.
-/
theorem decomposes_iff_outcome (text : String) (definitions : List RawDefinition)
    (error? : Option SplitError) :
    Decomposes text.toList 0 definitions error? ↔
      (ofText text).outcome = (definitions, error?) := by
  have scanning : (ofText text).state = .scanning := rfl
  rcases exists_decomposes scanning with ⟨found, foundError?, decomposes, comes⟩
  change (ofText text).outcome = (found, foundError?) at comes
  rw [comes, Prod.mk.injEq]
  constructor
  · intro other
    exact decomposes.unique other
  · rintro ⟨rfl, rfl⟩
    exact decomposes

end QueryPrep.Source
