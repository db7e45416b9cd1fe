import QueryPrep.Proofs.Merge.Batches
import Mathlib.Data.List.TakeWhile
import Mathlib.Logic.Function.Iterate

/-!
# Merging step by step

A call takes siblings one after the other, and where two of them come together it waits for another
call, which merges the sets of both. The siblings of that call are put together for it and stand
nowhere among the siblings of the first. Here the calls that wait are kept on a stack, and nothing
is said about how long this goes on.

Every moment stands for a list of siblings in which all that is at work has its place: what a call
has merged, what it has left, and around it the calls that wait. A step leaves this list as it is, or
one selection in it absorbs a later one. So the steps come to an end, with what merging returns, and
on the way nothing nests more or less deeply than before and nothing is added.
-/

namespace QueryPrep.Graphql

/-- What the parts of a selection count: a head, a spread, and a selection set as such. -/
structure Weighting where
  head : Head → Nat
  spread : Name → List Directive → Nat
  set : Nat

/-- Fields, inline fragments and spreads count one each, so what is weighed is how many there are. -/
def Weighting.nodes : Weighting where
  head _ := 1
  spread _ _ := 1
  set := 0

namespace Selection

mutual

/-- What a selection counts together with everything in it. -/
def weight (weighting : Weighting) : Selection → Nat
  | .node head none => weighting.head head
  | .node head (some selections) =>
      weighting.head head + (weighting.set + weightEach weighting selections)
  | .spread name directives => weighting.spread name directives

/-- What all of the selections count together. -/
def weightEach (weighting : Weighting) : List Selection → Nat
  | [] => 0
  | selection :: rest => selection.weight weighting + weightEach weighting rest

end

/-- What a selection counts apart from its selection set. -/
def ownWeight (weighting : Weighting) : Selection → Nat
  | .node head _ => weighting.head head
  | .spread name directives => weighting.spread name directives

variable {first second : Selection}

theorem weightEach_append (weighting : Weighting) (before after : List Selection) :
    weightEach weighting (before ++ after) =
      weightEach weighting before + weightEach weighting after := by
  induction before with
  | nil => simp [weightEach]
  | cons selection rest ih => simp only [List.cons_append, weightEach, ih, Nat.add_assoc]

theorem ownWeight_nodes (selection : Selection) : selection.ownWeight .nodes = 1 := by
  cases selection <;> rfl

/-- A selection that absorbs another one of its key nests as deeply as the two of them did. -/
theorem nesting_absorb (same : first.key = second.key) :
    (first.absorb id second).nesting = max first.nesting second.nesting := by
  cases first with
  | spread name directives =>
      cases second with
      | spread other others => rfl
      | node head theirs => exact absurd same (key_spread_ne_key_node head theirs)
  | node head mine =>
      cases second with
      | spread name directives => exact absurd same.symm (key_spread_ne_key_node head mine)
      | node other theirs =>
          cases mine <;> cases theirs <;>
            simp only [absorb, nesting, id_eq, Option.getD_none, Option.getD_some,
              nestingEach_append, nestingEach] <;>
            omega

/-- Of a selection that is absorbed, no more than its set is left. -/
theorem weight_absorb_add_le (weighting : Weighting) (first second : Selection) :
    (first.absorb id second).weight weighting + second.ownWeight weighting ≤
      first.weight weighting + second.weight weighting := by
  cases first with
  | spread name directives =>
      cases second with
      | spread other others => exact Nat.le_refl _
      | node head theirs =>
          cases theirs <;> simp only [absorb, weight, ownWeight] <;> omega
  | node head mine =>
      cases second with
      | spread name directives => cases mine <;> exact Nat.le_refl _
      | node other theirs =>
          cases mine <;> cases theirs <;>
            simp only [absorb, weight, ownWeight, id_eq, Option.getD_none, Option.getD_some,
              weightEach_append, weightEach] <;>
            omega

end Selection

open Selection

/--
A call that waits for the set of an entry, of which the head is known. It has merged other siblings
before and behind the entry, and some are left.
-/
structure WaitingCall where
  before : List Selection
  head : Head
  behind : List Selection
  rest : List Selection

/-- What a call has merged when it gets the set that it waits for. -/
def WaitingCall.mergedWith (call : WaitingCall) (set : List Selection) : List Selection :=
  call.before ++ .node call.head (some set) :: call.behind

/-- A moment of merging. The calls that wait come innermost first. -/
inductive MergeMoment
  | running (merged rest : List Selection) (outer : List WaitingCall)
  | ended (merged : List Selection)

namespace MergeMoment

/--
A sibling meets the entry that has its key. If one of them has a selection set, another call starts
with the selections of both sets.
-/
def meet (before : List Selection) (entry : Selection) (behind : List Selection)
    (selection : Selection) (rest : List Selection) (outer : List WaitingCall) : MergeMoment :=
  match entry, selection with
  | .node head none, .node _ none => .running (before ++ .node head none :: behind) rest outer
  | .node head mine, .node _ theirs =>
      .running [] (mine.getD [] ++ theirs.getD []) (⟨before, head, behind, rest⟩ :: outer)
  | entry, _ => .running (before ++ entry :: behind) rest outer

/-- What happens next: a call returns, or its next sibling becomes an entry or meets one. -/
def step : MergeMoment → MergeMoment
  | .running merged [] [] => .ended merged
  | .running merged [] (call :: outer) => .running (call.mergedWith merged) call.rest outer
  | .running merged (selection :: rest) outer =>
      match merged.dropWhile (·.key != selection.key) with
      | [] => .running (merged ++ [selection]) rest outer
      | entry :: behind =>
          meet (merged.takeWhile (·.key != selection.key)) entry behind selection rest outer
  | .ended merged => .ended merged

/-- The moment at which the merging of some siblings starts. -/
def start (siblings : List Selection) : MergeMoment :=
  .running [] siblings []

/-- The siblings that the innermost call has to do with, at their place in the calls that wait. -/
def within : List WaitingCall → List Selection → List Selection
  | [], inner => inner
  | call :: outer, inner => within outer (call.mergedWith inner ++ call.rest)

/-- The siblings that a moment stands for. -/
def siblings : MergeMoment → List Selection
  | .running merged rest outer => within outer (merged ++ rest)
  | .ended merged => merged

/-- How many calls wait. -/
def waiting : MergeMoment → Nat
  | .running _ _ outer => outer.length
  | .ended _ => 0

/-- How many siblings the calls that wait have to take, and how many calls they are. -/
def leftAround : List WaitingCall → Nat
  | [] => 0
  | call :: outer => call.rest.length + 1 + leftAround outer

/-- How many siblings are left to take, and how many calls to return. -/
def left : MergeMoment → Nat
  | .running _ rest outer => rest.length + 1 + leftAround outer
  | .ended _ => 0

end MergeMoment

open MergeMoment

section Entries

/-- The next sibling becomes an entry, or it meets the first entry that has its key. -/
theorem step_cons_cases (merged : List Selection) (selection : Selection) (rest : List Selection)
    (outer : List WaitingCall) :
    ((∀ entry ∈ merged, entry.key ≠ selection.key) ∧
      step (.running merged (selection :: rest) outer) =
        .running (merged ++ [selection]) rest outer) ∨
    ∃ before entry behind, merged = before ++ entry :: behind ∧ entry.key = selection.key ∧
      (∀ earlier ∈ before, earlier.key ≠ selection.key) ∧
      step (.running merged (selection :: rest) outer) =
        meet before entry behind selection rest outer := by
  have split := List.takeWhile_append_dropWhile (p := (·.key != selection.key)) (l := merged)
  cases found : merged.dropWhile (·.key != selection.key) with
  | nil =>
      refine .inl ⟨?_, by simp only [step, found]⟩
      simpa using List.dropWhile_eq_nil_iff.mp found
  | cons entry behind =>
      refine .inr ⟨_, entry, behind, (found ▸ split).symm, ?_, ?_, by simp only [step, found]⟩
      · have stopped := List.head?_dropWhile_not (·.key != selection.key) merged
        rw [found] at stopped
        simpa using stopped
      · intro earlier member
        simpa using List.mem_takeWhile_imp member

/--
Where a sibling meets an entry, the entry is not changed by it, or it gets a set that another call
has to make of the selections of both.
-/
theorem meet_cases (before : List Selection) (entry : Selection) (behind : List Selection)
    (selection : Selection) (rest : List Selection) (outer : List WaitingCall) :
    (meet before entry behind selection rest outer =
        .running (before ++ entry :: behind) rest outer ∧
      ∀ merge, entry.absorb merge selection = entry) ∨
    ∃ head united, meet before entry behind selection rest outer =
        .running [] united (⟨before, head, behind, rest⟩ :: outer) ∧
      ∀ merge, entry.absorb merge selection = .node head (some (merge united)) := by
  cases entry with
  | spread name directives => exact .inl ⟨rfl, fun _ => rfl⟩
  | node head mine =>
      cases selection with
      | spread name directives => cases mine <;> exact .inl ⟨rfl, fun _ => rfl⟩
      | node other theirs =>
          cases mine <;> cases theirs
          case none.none => exact .inl ⟨rfl, fun _ => rfl⟩
          all_goals exact .inr ⟨head, _, rfl, fun _ => rfl⟩

variable {merge : List Selection → List Selection} {selection entry : Selection}
variable {merged before behind : List Selection}

/-- A sibling with a new key is put behind the entries. -/
theorem insertSelection_of_forall_ne (fresh : ∀ entry ∈ merged, entry.key ≠ selection.key) :
    insertSelection merge selection merged = merged ++ [selection] := by
  induction merged with
  | nil => rfl
  | cons first rest ih =>
      rw [List.forall_mem_cons] at fresh
      rw [insertSelection, if_neg fresh.1, ih fresh.2, List.cons_append]

/-- A sibling with a known key is absorbed by the entry that has it. -/
theorem insertSelection_append_cons (same : entry.key = selection.key)
    (others : ∀ earlier ∈ before, earlier.key ≠ selection.key) :
    insertSelection merge selection (before ++ entry :: behind) =
      before ++ entry.absorb merge selection :: behind := by
  induction before with
  | nil => rw [List.nil_append, insertSelection, if_pos same, List.nil_append]
  | cons first rest ih =>
      rw [List.forall_mem_cons] at others
      rw [List.cons_append, insertSelection, if_neg others.1, ih others.2, List.cons_append]

end Entries

section Outcome

/-- What comes of entries when further siblings are merged into them. -/
def mergeInto (merged rest : List Selection) : List Selection :=
  rest.foldl (fun merged selection => insertSelection mergeSelections selection merged) merged

theorem mergeSelections_eq_mergeInto (siblings : List Selection) :
    mergeSelections siblings = mergeInto [] siblings :=
  mergeSelections_eq_foldl siblings

theorem mergeInto_cons (merged : List Selection) (selection : Selection) (rest : List Selection) :
    mergeInto merged (selection :: rest) =
      mergeInto (insertSelection mergeSelections selection merged) rest := rfl

namespace MergeMoment

/-- What the calls that wait come to when the innermost of them gets its set. -/
def resume : List WaitingCall → List Selection → List Selection
  | [], merged => merged
  | call :: outer, merged => resume outer (mergeInto (call.mergedWith merged) call.rest)

/-- What a moment leads to in the end. -/
def outcome : MergeMoment → List Selection
  | .running merged rest outer => resume outer (mergeInto merged rest)
  | .ended merged => merged

theorem outcome_meet (before : List Selection) (entry : Selection) (behind : List Selection)
    (selection : Selection) (rest : List Selection) (outer : List WaitingCall) :
    (meet before entry behind selection rest outer).outcome =
      resume outer (mergeInto (before ++ entry.absorb mergeSelections selection :: behind) rest) := by
  rcases meet_cases before entry behind selection rest outer with
    ⟨met, absorbed⟩ | ⟨head, united, met, absorbed⟩
  · rw [met, absorbed, outcome]
  · rw [met, absorbed, outcome, resume, WaitingCall.mergedWith, mergeSelections_eq_mergeInto]

/-- What a moment leads to is what the next one leads to. -/
theorem outcome_step (moment : MergeMoment) : moment.step.outcome = moment.outcome := by
  match moment with
  | .ended merged => rfl
  | .running merged [] [] => rfl
  | .running merged [] (call :: outer) => rfl
  | .running merged (selection :: rest) outer =>
      rcases step_cons_cases merged selection rest outer with
        ⟨fresh, stepped⟩ | ⟨before, entry, behind, rfl, same, others, stepped⟩
      · rw [stepped, outcome, outcome, mergeInto_cons, insertSelection_of_forall_ne fresh]
      · rw [stepped, outcome_meet, outcome, mergeInto_cons, insertSelection_append_cons same others]

end MergeMoment

end Outcome

section Steps

/-- One selection absorbs a later one with the same key, in a set that a call has to do with. -/
inductive Absorbs : List Selection → List Selection → Prop
  | intro (outer : List WaitingCall) (before : List Selection) (first : Selection)
      (between : List Selection) (second : Selection) (after : List Selection)
      (same : first.key = second.key) :
      Absorbs (within outer (before ++ first :: (between ++ second :: after)))
        (within outer (before ++ first.absorb id second :: (between ++ after)))

namespace MergeMoment

theorem siblings_meet (before : List Selection) (entry : Selection) (behind : List Selection)
    (selection : Selection) (rest : List Selection) (outer : List WaitingCall) :
    (meet before entry behind selection rest outer).siblings =
      within outer (before ++ entry.absorb id selection :: (behind ++ rest)) := by
  rcases meet_cases before entry behind selection rest outer with
    ⟨met, absorbed⟩ | ⟨head, united, met, absorbed⟩
  · rw [met, absorbed, siblings, List.append_assoc, List.cons_append]
  · rw [met, absorbed, siblings, within, List.nil_append, WaitingCall.mergedWith,
      List.append_assoc, List.cons_append, id_eq]

/--
A step changes nothing about the siblings and leaves less to take and to return, or one selection
absorbs another.
-/
theorem step_cases (moment : MergeMoment) :
    (∃ merged, moment = .ended merged) ∨
    (moment.step.siblings = moment.siblings ∧ moment.step.left < moment.left) ∨
    Absorbs moment.siblings moment.step.siblings := by
  match moment with
  | .ended merged => exact .inl ⟨merged, rfl⟩
  | .running merged [] [] =>
      refine .inr (.inl ⟨?_, ?_⟩)
      · simp [step, siblings, within]
      · simp [step, left, leftAround]
  | .running merged [] (call :: outer) =>
      refine .inr (.inl ⟨?_, ?_⟩)
      · simp [step, siblings, within]
      · simp only [step, left, leftAround, List.length_nil]
        omega
  | .running merged (selection :: rest) outer =>
      right
      rcases step_cons_cases merged selection rest outer with
        ⟨_, stepped⟩ | ⟨before, entry, behind, rfl, same, _, stepped⟩
      · left
        rw [stepped]
        constructor
        · simp [siblings]
        · simp [left]
      · right
        rw [stepped, siblings_meet, siblings, List.append_assoc, List.cons_append]
        exact .intro outer before entry behind selection rest same

end MergeMoment

end Steps

section Context

variable {inner other : List Selection}

theorem nestingEach_within_congr (same : nestingEach inner = nestingEach other)
    (outer : List WaitingCall) :
    nestingEach (within outer inner) = nestingEach (within outer other) := by
  induction outer generalizing inner other with
  | nil => exact same
  | cons call outer ih =>
      apply ih
      simp only [WaitingCall.mergedWith, nestingEach_append, nestingEach, nesting, same]

theorem weightEach_within_add_le {weighting : Weighting} {extra : Nat}
    (less : weightEach weighting inner + extra ≤ weightEach weighting other)
    (outer : List WaitingCall) :
    weightEach weighting (within outer inner) + extra ≤
      weightEach weighting (within outer other) := by
  induction outer generalizing inner other with
  | nil => exact less
  | cons call outer ih =>
      apply ih
      simp only [WaitingCall.mergedWith, weightEach_append, weightEach, weight]
      omega

/-- Every call that waits does so for a set one level further down. -/
theorem length_le_nestingEach_within (outer : List WaitingCall) (inner : List Selection) :
    outer.length + nestingEach inner ≤ nestingEach (within outer inner) := by
  induction outer generalizing inner with
  | nil => simp [within]
  | cons call outer ih =>
      have deeper := ih (call.mergedWith inner ++ call.rest)
      simp only [WaitingCall.mergedWith, nestingEach_append, nestingEach, nesting] at deeper
      simp only [within, List.length_cons, WaitingCall.mergedWith]
      omega

variable {siblings next : List Selection}

theorem Absorbs.nestingEach_eq (absorbs : Absorbs siblings next) :
    nestingEach next = nestingEach siblings := by
  cases absorbs with
  | intro outer before first between second after same =>
      apply nestingEach_within_congr
      simp only [nestingEach_append, nestingEach, nesting_absorb same]
      omega

theorem Absorbs.exists_weightEach_add_le (absorbs : Absorbs siblings next) :
    ∃ absorbed : Selection, ∀ weighting,
      weightEach weighting next + absorbed.ownWeight weighting ≤ weightEach weighting siblings := by
  cases absorbs with
  | intro outer before first between second after same =>
      refine ⟨second, fun weighting => weightEach_within_add_le ?_ outer⟩
      have less := weight_absorb_add_le weighting first second
      simp only [weightEach_append, weightEach]
      omega

end Context

section Runs

variable {moment between next : MergeMoment}

/-- What a later moment of merging has in common with an earlier one. -/
structure Keeps (moment next : MergeMoment) : Prop where
  outcome : next.outcome = moment.outcome
  nesting : nestingEach next.siblings = nestingEach moment.siblings
  weight : ∀ weighting, weightEach weighting next.siblings ≤ weightEach weighting moment.siblings

theorem Keeps.refl (moment : MergeMoment) : Keeps moment moment :=
  ⟨rfl, rfl, fun _ => Nat.le_refl _⟩

theorem Keeps.trans (first : Keeps moment between) (second : Keeps between next) :
    Keeps moment next where
  outcome := second.outcome.trans first.outcome
  nesting := second.nesting.trans first.nesting
  weight weighting := (second.weight weighting).trans (first.weight weighting)

theorem keeps_step (moment : MergeMoment) : Keeps moment moment.step := by
  rcases step_cases moment with ⟨merged, rfl⟩ | ⟨same, _⟩ | absorbs
  · exact .refl _
  · exact ⟨outcome_step moment, by rw [same], fun _ => by rw [same]⟩
  · rcases absorbs.exists_weightEach_add_le with ⟨absorbed, less⟩
    refine ⟨outcome_step moment, absorbs.nestingEach_eq, ?_⟩
    intro weighting
    exact Nat.le_of_add_right_le (less weighting)

theorem keeps_iterate (moment : MergeMoment) (steps : Nat) :
    Keeps moment (MergeMoment.step^[steps] moment) := by
  induction steps with
  | zero => exact .refl moment
  | succ steps ih =>
      rw [Function.iterate_succ_apply']
      exact ih.trans (keeps_step _)

/-- Where a selection is absorbed, there is one node less. -/
theorem Absorbs.nodes_lt {siblings next : List Selection} (absorbs : Absorbs siblings next) :
    weightEach .nodes next < weightEach .nodes siblings := by
  rcases absorbs.exists_weightEach_add_le with ⟨absorbed, less⟩
  have one := less .nodes
  rw [ownWeight_nodes] at one
  exact one

/--
From every moment on, the steps come to an end. Each leaves fewer nodes, or else as many of them and
less to take and to return.
-/
theorem exists_iterate_eq_ended (moment : MergeMoment) :
    ∃ steps merged, MergeMoment.step^[steps] moment = .ended merged := by
  rcases step_cases moment with ⟨merged, ended⟩ | ⟨same, less⟩ | absorbs
  · exact ⟨0, merged, ended⟩
  · rcases exists_iterate_eq_ended moment.step with ⟨steps, merged, ended⟩
    exact ⟨steps + 1, merged, ended⟩
  · rcases exists_iterate_eq_ended moment.step with ⟨steps, merged, ended⟩
    exact ⟨steps + 1, merged, ended⟩
termination_by (weightEach .nodes moment.siblings, moment.left)
decreasing_by
  · rw [same]
    exact Prod.Lex.right _ less
  · exact Prod.Lex.left _ _ absorbs.nodes_lt

theorem waiting_le_nestingEach (moment : MergeMoment) :
    moment.waiting ≤ nestingEach moment.siblings := by
  cases moment with
  | ended merged => exact Nat.zero_le _
  | running merged rest outer =>
      exact Nat.le_of_add_right_le (length_le_nestingEach_within outer (merged ++ rest))

/--
Merging siblings takes finitely many steps, and no more calls wait on the way than selection sets
are nested below the siblings. The result nests exactly as deeply as the siblings did. It counts no
more than they do, whatever each head, each spread and each set counts; the number of its nodes is
one such count.
-/
theorem merging_ends_without_growth (siblings : List Selection) :
    (∃ steps, MergeMoment.step^[steps] (.start siblings) = .ended (mergeSelections siblings)) ∧
      (∀ steps, (MergeMoment.step^[steps] (.start siblings)).waiting ≤ nestingEach siblings) ∧
      nestingEach (mergeSelections siblings) = nestingEach siblings ∧
      ∀ weighting,
        weightEach weighting (mergeSelections siblings) ≤ weightEach weighting siblings := by
  have begins : (MergeMoment.start siblings).outcome = mergeSelections siblings :=
    (mergeSelections_eq_mergeInto siblings).symm
  rcases exists_iterate_eq_ended (.start siblings) with ⟨steps, merged, ended⟩
  have kept := keeps_iterate (.start siblings) steps
  have result : merged = mergeSelections siblings := by
    rw [← begins, ← kept.outcome, ended]
    rfl
  rw [ended, result] at kept
  refine ⟨⟨steps, result ▸ ended⟩, ?_, kept.nesting, kept.weight⟩
  intro steps
  have deepest := waiting_le_nestingEach (MergeMoment.step^[steps] (.start siblings))
  rwa [(keeps_iterate (.start siblings) steps).nesting] at deepest

end Runs

end QueryPrep.Graphql
