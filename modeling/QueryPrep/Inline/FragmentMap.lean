import QueryPrep.Graphql.Syntax
import QueryPrep.Inline.InlineError

/-!
# Fragment maps

The fragments of a document by name. When a name is defined more than once, the last definition
counts, in the place of the first.
-/

namespace QueryPrep.Inline

open QueryPrep.Graphql

/-- Whether a repeated fragment name is an error. -/
inductive Strictness
  | strict
  | lenient
deriving DecidableEq

/-- Fragments with distinct names, in the order in which the names were first defined. -/
structure FragmentMap where
  fragments : List FragmentDefinition
  distinct : (fragments.map FragmentDefinition.name).Nodup

namespace FragmentMap

/-- Fragments with one more: in the place of the one with its name, or last. -/
def put (fragment : FragmentDefinition) : List FragmentDefinition → List FragmentDefinition
  | [] => [fragment]
  | first :: rest =>
    if first.name = fragment.name then fragment :: rest else first :: put fragment rest

theorem mem_names_put {fragment : FragmentDefinition} {fragments : List FragmentDefinition}
    {name : Name} :
    name ∈ (put fragment fragments).map FragmentDefinition.name ↔
      name = fragment.name ∨ name ∈ fragments.map FragmentDefinition.name := by
  induction fragments with
  | nil => simp [put]
  | cons first rest ih =>
    unfold put
    split
    case isTrue same =>
      simp only [List.map_cons, List.mem_cons, same]
      exact ⟨fun member => member.imp_right Or.inr, fun member => by
        rcases member with here | here | later
        · exact Or.inl here
        · exact Or.inl here
        · exact Or.inr later⟩
    case isFalse differs =>
      simp only [List.map_cons, List.mem_cons, ih]
      exact or_left_comm

theorem nodup_names_put {fragment : FragmentDefinition} {fragments : List FragmentDefinition}
    (distinct : (fragments.map FragmentDefinition.name).Nodup) :
    ((put fragment fragments).map FragmentDefinition.name).Nodup := by
  induction fragments with
  | nil => simp [put]
  | cons first rest ih =>
    rw [List.map_cons, List.nodup_cons] at distinct
    unfold put
    split
    case isTrue same =>
      rw [List.map_cons, List.nodup_cons, ← same]
      exact distinct
    case isFalse differs =>
      rw [List.map_cons, List.nodup_cons, mem_names_put]
      exact ⟨fun member => member.elim differs distinct.1, ih distinct.2⟩

/-- The map without fragments. -/
def empty : FragmentMap := ⟨[], by simp⟩

/-- The map in which the name of the fragment stands for it. -/
def insert (map : FragmentMap) (fragment : FragmentDefinition) : FragmentMap where
  fragments := put fragment map.fragments
  distinct := nodup_names_put map.distinct

/-- The map of a list of fragments; the last of a name counts. -/
def ofFragments (fragments : List FragmentDefinition) : FragmentMap :=
  fragments.foldl insert empty

/-- The fragment that a name stands for. -/
def find? (map : FragmentMap) (name : String) : Option FragmentDefinition :=
  map.fragments.find? (·.name.text == name)

/-- The names of the map. -/
def names (map : FragmentMap) : List Name :=
  map.fragments.map FragmentDefinition.name

/-- The names that are defined although they have been before, once for every such definition. -/
def redefinitions : (seen : List Name) → List FragmentDefinition → List Name
  | _, [] => []
  | seen, fragment :: rest =>
    if fragment.name ∈ seen then fragment.name :: redefinitions seen rest
    else redefinitions (fragment.name :: seen) rest

/--
The fragment map of a document. A repeated name is an error in strict mode, where the first
redefinition is the one that is reported.
-/
def ofDocument (strictness : Strictness) (document : Document) :
    Except InlineError FragmentMap :=
  match strictness, redefinitions [] document.fragments with
  | .strict, name :: _ => .error (.duplicate name)
  | _, _ => .ok (ofFragments document.fragments)

/-- The redefinitions that a document is warned about: all of them, unless they are errors. -/
def warnings (strictness : Strictness) (document : Document) : List Name :=
  match strictness with
  | .strict => []
  | .lenient => redefinitions [] document.fragments

end FragmentMap

end QueryPrep.Inline
