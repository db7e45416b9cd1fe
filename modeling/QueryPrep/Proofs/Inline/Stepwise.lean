import QueryPrep.Proofs.Inline.Refinement
import Mathlib.Data.List.Nodup
import Mathlib.Data.List.Perm.Subperm
import Mathlib.Logic.Function.Iterate

/-!
# Expanding step by step

Expanding a selection set is calling for the expansion of other sets, those of its nodes and those
of the fragments that it spreads. Here the calls that have not returned are kept on a stack, and
nothing is said about how long this goes on: a step looks at one selection and may put a set on the
stack that is larger than all before.

The steps come to an end all the same, with what the expansion returns. At every moment the open
fragments are defined, different from each other and from those that were open at the start, so no
more bodies can be open than there are fragments.
-/

namespace QueryPrep.Inline

open QueryPrep.Graphql

/-- A selection set in the course of its expansion: what has come of it, and what is left. -/
structure Progress where
  expanded : List Selection
  rest : List Selection

/-- The same set after more has come of it. -/
def Progress.add (progress : Progress) (selections : List Selection) : Progress :=
  { progress with expanded := progress.expanded ++ selections }

/-- A set that waits for another one: for that of a node, or for the body of a fragment. -/
inductive Waiting
  | node (head : Head) (outer : Progress)
  | fragment (name : String) (outer : Progress)

/-- The fragments whose bodies are open, the innermost last. The sets come innermost first. -/
def openBodies : List Waiting → List String
  | [] => []
  | .node _ _ :: outer => openBodies outer
  | .fragment name _ :: outer => openBodies outer ++ [name]

/-- A moment of an expansion, with all that has been remembered. -/
inductive Moment
  | running (cache : Cache) (inner : Progress) (outer : List Waiting)
  | ended (result : EStateM.Result InlineError Cache (List Selection))

namespace Moment

/-- A set without a rest is handed to the one that waits for it. -/
def complete (cache : Cache) (selections : List Selection) : List Waiting → Moment
  | [] => .ended (.ok selections cache)
  | .node head progress :: outer =>
    .running cache (progress.add [.node head (some selections)]) outer
  | .fragment name progress :: outer =>
    .running (cache.insert name selections) (progress.add selections) outer

/-- A spread is a cycle, is remembered, is unresolved, or opens the body of its fragment. -/
def spread (map : FragmentMap) (path : List String) (cache : Cache) (name : String)
    (progress : Progress) (outer : List Waiting) : Moment :=
  if name ∈ path ++ openBodies outer then
    .ended (.error (.cyclic (path ++ openBodies outer ++ [name])) cache)
  else
    match cache.find? name with
    | some selections => .running cache (progress.add selections) outer
    | none =>
      match map.find? name with
      | none => .ended (.error (.unresolved name) cache)
      | some fragment =>
        .running cache ⟨[], fragment.selections⟩ (.fragment name progress :: outer)

/-- What happens next, if the fragments of `path` were open at the start. -/
def step (map : FragmentMap) (path : List String) : Moment → Moment
  | .running cache ⟨expanded, []⟩ outer => complete cache (mergeSelections expanded) outer
  | .running cache ⟨expanded, .node head none :: rest⟩ outer =>
    .running cache ⟨expanded ++ [.node head none], rest⟩ outer
  | .running cache ⟨expanded, .node head (some selections) :: rest⟩ outer =>
    .running cache ⟨[], selections⟩ (.node head ⟨expanded, rest⟩ :: outer)
  | .running cache ⟨expanded, .spread name _ :: rest⟩ outer =>
    spread map path cache name.text ⟨expanded, rest⟩ outer
  | .ended result => .ended result

/-- The moment at which the expansion of a selection set starts. -/
def start (cache : Cache) (selections : List Selection) : Moment :=
  .running cache ⟨[], selections⟩ []

/-- The moment behind some selections of a set, given what their expansion has come to. -/
def behind (expanded rest : List Selection) (outer : List Waiting) :
    EStateM.Result InlineError Cache (List Selection) → Moment
  | .ok more after => .running after ⟨expanded ++ more, rest⟩ outer
  | .error error after => .ended (.error error after)

/-- The fragments that have been opened since the start and are open still. -/
def openNames : Moment → List String
  | .running _ _ outer => openBodies outer
  | .ended _ => []

end Moment

section Opening

variable {map : FragmentMap} {path names : List String} {name : String} {moment : Moment}

/-- Names of different fragments that are defined and were not open before. -/
structure OpensOnce (map : FragmentMap) (path names : List String) : Prop where
  distinct : names.Nodup
  defined : ∀ name ∈ names, ∃ fragment, map.find? name = some fragment
  apart : path.Disjoint names

theorem OpensOnce.nil : OpensOnce map path [] where
  distinct := List.nodup_nil
  defined := by simp
  apart := List.disjoint_nil_right _

theorem OpensOnce.append {fragment : FragmentDefinition} (opens : OpensOnce map path names)
    (closed : name ∉ path ++ names) (found : map.find? name = some fragment) :
    OpensOnce map path (names ++ [name]) := by
  rw [List.mem_append, not_or] at closed
  constructor
  case distinct =>
    rw [List.nodup_append]
    refine ⟨opens.distinct, List.nodup_singleton name, ?_⟩
    intro other member last isLast same
    exact closed.2 (List.mem_singleton.mp isLast ▸ same ▸ member)
  case defined =>
    intro other member
    rcases List.mem_append.mp member with earlier | last
    · exact opens.defined other earlier
    · exact ⟨fragment, List.mem_singleton.mp last ▸ found⟩
  case apart =>
    intro other onPath member
    rcases List.mem_append.mp member with earlier | last
    · exact opens.apart onPath earlier
    · exact closed.1 (List.mem_singleton.mp last ▸ onPath)

theorem OpensOnce.of_append (opens : OpensOnce map path (names ++ [name])) :
    OpensOnce map path names where
  distinct := (List.nodup_append.mp opens.distinct).1
  defined other member := opens.defined other (List.mem_append_left _ member)
  apart _ onPath member := opens.apart onPath (List.mem_append_left _ member)

theorem OpensOnce.length_le (opens : OpensOnce map path names) :
    names.length ≤ map.names.length := by
  have defined : names ⊆ map.names.map Name.text := by
    intro name member
    rcases opens.defined name member with ⟨fragment, found⟩
    have inMap := List.mem_of_find?_eq_some found
    have named : fragment.name.text = name := by simpa using List.find?_some found
    rw [← named, FragmentMap.names, List.map_map]
    exact List.mem_map_of_mem inMap
  have bounded := (opens.distinct.subperm defined).length_le
  rwa [List.length_map] at bounded

theorem opensOnce_complete {cache : Cache} {selections : List Selection} {outer : List Waiting}
    (opens : OpensOnce map path (openBodies outer)) :
    OpensOnce map path (Moment.complete cache selections outer).openNames := by
  cases outer with
  | nil => exact .nil
  | cons waiting outer =>
      cases waiting with
      | node head progress => exact opens
      | fragment name progress => exact OpensOnce.of_append opens

theorem opensOnce_spread {cache : Cache} {progress : Progress} {outer : List Waiting}
    (opens : OpensOnce map path (openBodies outer)) :
    OpensOnce map path (Moment.spread map path cache name progress outer).openNames := by
  unfold Moment.spread
  split
  case isTrue => exact .nil
  case isFalse closed =>
    split
    case h_1 => exact opens
    case h_2 =>
      split
      case h_1 => exact .nil
      case h_2 fragment found => exact opens.append closed found

/-- What is open at one moment is open once, and so is what is open at the next. -/
theorem opensOnce_step (opens : OpensOnce map path moment.openNames) :
    OpensOnce map path (moment.step map path).openNames := by
  unfold Moment.step
  split
  case h_1 => exact opensOnce_complete opens
  case h_2 => exact opens
  case h_3 => exact opens
  case h_4 => exact opensOnce_spread opens
  case h_5 => exact .nil

end Opening

section Reaching

variable {map : FragmentMap} {path : List String} {first between last : Moment}

/-- Some number of steps leads from one moment to another. -/
def Leads (map : FragmentMap) (path : List String) (first last : Moment) : Prop :=
  ∃ steps, (Moment.step map path)^[steps] first = last

theorem Leads.refl (moment : Moment) : Leads map path moment moment :=
  ⟨0, rfl⟩

theorem Leads.trans (leads : Leads map path first between) (more : Leads map path between last) :
    Leads map path first last := by
  rcases leads with ⟨steps, rfl⟩
  rcases more with ⟨others, rfl⟩
  exact ⟨others + steps, Function.iterate_add_apply _ others steps first⟩

theorem Leads.single : Leads map path first (first.step map path) :=
  ⟨1, rfl⟩

theorem Leads.next (more : Leads map path (first.step map path) last) : Leads map path first last :=
  Leads.single.trans more

end Reaching

/--
The steps through some selections of a set lead to what an expansion returns, whatever has come of
the set before and whatever is left of it. The sets in `outer` wait for it.
-/
def Performs (map : FragmentMap) (path : List String) (outer : List Waiting)
    (expansion : Expansion (List Selection)) (selections : List Selection) : Prop :=
  ∀ cache expanded rest,
    Leads map path (.running cache ⟨expanded, selections ++ rest⟩ outer)
      (.behind expanded rest outer (expansion.run cache))

namespace Performs

variable {map : FragmentMap} {path names : List String} {outer : List Waiting}

theorem nil : Performs map path outer (return []) [] := by
  intro cache expanded rest
  rw [EStateM.run_pure, Moment.behind, List.append_nil]
  exact .refl _

theorem append {expansion more : Expansion (List Selection)} {selections others : List Selection}
    (performs : Performs map path outer expansion selections)
    (morePerforms : Performs map path outer more others) :
    Performs map path outer
      (do
        let first ← expansion
        let second ← more
        return first ++ second)
      (selections ++ others) := by
  intro cache expanded rest
  have leads := performs cache expanded (others ++ rest)
  rw [List.append_assoc]
  simp only [EStateM.run_bind]
  cases ran : expansion.run cache with
  | error error after =>
      rw [ran] at leads
      exact leads
  | ok first between =>
      rw [ran] at leads
      apply leads.trans
      have moreLeads := morePerforms between (expanded ++ first) rest
      dsimp only
      cases moreRan : more.run between with
      | error error after =>
          rw [moreRan] at moreLeads
          exact moreLeads
      | ok second after =>
          rw [moreRan, Moment.behind, List.append_assoc] at moreLeads
          exact moreLeads

/-- The set of a node is expanded on its own while the set around it waits. -/
theorem node {expansion : Expansion (List Selection)} {selections : List Selection} {head : Head}
    (performs : ∀ progress, Performs map path (.node head progress :: outer) expansion selections) :
    Performs map path outer
      (do
        let expanded ← expansion
        return [.node head (some (mergeSelections expanded))])
      [.node head (some selections)] := by
  intro cache expanded rest
  have leads := performs ⟨expanded, rest⟩ cache [] []
  rw [List.append_nil] at leads
  apply Leads.next
  apply leads.trans
  simp only [EStateM.run_bind]
  cases ran : expansion.run cache with
  | error error after => exact .refl _
  | ok more after => exact .single

variable {expand : String → Expansion (List Selection)}

mutual

theorem expandSelection (selection : Selection) (outer : List Waiting)
    (same : openBodies outer = names)
    (spreads : ∀ outer, openBodies outer = names → ∀ name directives,
      Performs map path outer (expand name.text) [.spread name directives]) :
    Performs map path outer (expandSelection expand selection) [selection] := by
  cases selection with
  | node head set =>
      cases set with
      | none =>
          simp only [Inline.expandSelection]
          intro cache expanded rest
          exact .single
      | some selections =>
          simp only [Inline.expandSelection]
          apply node
          intro progress
          exact expandEach selections (.node head progress :: outer) same spreads
  | spread name directives =>
      simp only [Inline.expandSelection]
      exact spreads outer same name directives

theorem expandEach (selections : List Selection) (outer : List Waiting)
    (same : openBodies outer = names)
    (spreads : ∀ outer, openBodies outer = names → ∀ name directives,
      Performs map path outer (expand name.text) [.spread name directives]) :
    Performs map path outer (expandEach expand selections) selections := by
  cases selections with
  | nil =>
      simp only [Inline.expandEach]
      exact nil
  | cons selection rest =>
      simp only [Inline.expandEach]
      exact append (expandSelection selection outer same spreads)
        (expandEach rest outer same spreads)

end

/--
A spread leads to what the expansion of its fragment returns. The induction is on the fragments that
are not open; opening one of them leaves fewer.
-/
theorem spread (outer : List Waiting) (name : Name) (directives : List Directive) :
    Performs map path outer (expandFragment map (path ++ openBodies outer) name.text)
      [.spread name directives] := by
  induction unopened : map.unopened (path ++ openBodies outer)
    using Nat.strongRecOn generalizing outer name directives with
  | ind unopened ih =>
  subst unopened
  intro cache expanded rest
  apply Leads.next
  have stepped : Moment.step map path
      (.running cache ⟨expanded, [.spread name directives] ++ rest⟩ outer) =
    Moment.spread map path cache name.text ⟨expanded, rest⟩ outer := rfl
  rw [stepped]
  unfold Moment.spread
  by_cases inPath : name.text ∈ path ++ openBodies outer
  · rw [run_expandFragment_of_mem inPath, if_pos inPath]
    exact .refl _
  rw [if_neg inPath]
  cases remembered : cache.find? name.text with
  | some selections =>
      rw [run_expandFragment_of_remembered inPath remembered]
      exact .refl _
  | none =>
      cases found : map.find? name.text with
      | none =>
          rw [run_expandFragment_of_undefined inPath remembered found]
          exact .refl _
      | some fragment =>
          -- The body is expanded while its fragment is open, and so is everything inside it.
          have fewer := FragmentMap.unopened_append_lt found inPath
          rw [List.append_assoc] at fewer
          have body : Performs map path (.fragment name.text ⟨expanded, rest⟩ :: outer)
              (Inline.expandEach (expandFragment map (path ++ openBodies outer ++ [name.text]))
                fragment.selections) fragment.selections := by
            apply expandEach
            case same => rfl
            case spreads =>
              intro inside same inner innerDirectives
              rw [List.append_assoc]
              change openBodies inside = openBodies outer ++ [name.text] at same
              rw [← same] at fewer ⊢
              exact ih _ fewer inside inner innerDirectives rfl
          have leads := body cache [] []
          rw [List.append_nil] at leads
          apply leads.trans
          rw [run_expandFragment_of_defined inPath remembered found]
          cases (Inline.expandEach (expandFragment map (path ++ openBodies outer ++ [name.text]))
              fragment.selections).run cache with
          | error error after => exact .refl _
          | ok more after => exact .single

end Performs

/--
Expanding a selection set takes finitely many steps, whatever the fragments, the cache and the path
are. At every moment the fragments that have been opened are defined and different from each other
and from those of the path, so no more bodies are open than there are fragments.
-/
theorem ends_opening_each_once (map : FragmentMap) (cache : Cache) (path : List String)
    (selections : List Selection) :
    (∃ steps, (Moment.step map path)^[steps] (.start cache selections) =
      .ended ((expandSelections map path selections).run cache)) ∧
    ∀ steps moment, (Moment.step map path)^[steps] (.start cache selections) = moment →
      OpensOnce map path moment.openNames ∧ moment.openNames.length ≤ map.names.length := by
  constructor
  case left =>
    have spreads : ∀ outer, openBodies outer = [] → ∀ name directives,
        Performs map path outer (expandFragment map path name.text) [.spread name directives] := by
      intro outer none name directives
      have performs : Performs map path outer
          (expandFragment map (path ++ openBodies outer) name.text) [.spread name directives] :=
        .spread outer name directives
      rwa [none, List.append_nil] at performs
    have leads := Performs.expandEach selections [] rfl spreads cache [] []
    rw [List.append_nil] at leads
    apply leads.trans
    simp only [expandSelections, expandSet, EStateM.run_bind]
    cases (expandEach (expandFragment map path) selections).run cache with
    | error error after => exact .refl _
    | ok expanded after => exact .single
  case right =>
    intro steps moment reached
    have opens : OpensOnce map path moment.openNames := by
      subst reached
      induction steps with
      | zero => exact .nil
      | succ steps ih =>
          rw [Function.iterate_succ_apply']
          exact opensOnce_step ih
    exact ⟨opens, opens.length_le⟩

end QueryPrep.Inline
