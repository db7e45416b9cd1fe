import QueryPrep.Proofs.Inline.Substitution
import Mathlib.Data.List.Chain
import Mathlib.Data.List.Induction
import Mathlib.Data.List.Nodup
import Mathlib.Logic.Relation

/-!
# Which fragments spread which

The last definition of a name is the one that counts. Reading the definitions in that way makes a
graph of the names of a document: an arrow leads from a name to whatever its definition spreads, at
any depth, and the operations say where to begin.
-/

namespace QueryPrep.Graphql.Document

open Selection

/-- The last fragment of a document that has the given name. -/
def lastFragment? (document : Document) (name : String) : Option FragmentDefinition :=
  document.fragments.reverse.find? (·.name.text == name)

/-- What `outer` stands for spreads `inner`, at any depth. -/
def Spreads (document : Document) (outer inner : String) : Prop :=
  ∃ fragment, document.lastFragment? outer = some fragment ∧
    inner ∈ spreadsEach fragment.selections

/-- Some operation spreads the name, at any depth. -/
def Opens (document : Document) (name : String) : Prop :=
  ∃ operation ∈ document.operations, name ∈ spreadsEach operation.selections

/-- Some operation leads to the name, by itself or through fragments. -/
inductive Reaches (document : Document) : String → Prop
  | opened {name : String} (opens : document.Opens name) : Reaches document name
  | through {outer inner : String} (reached : Reaches document outer)
      (spreads : document.Spreads outer inner) : Reaches document inner

/--
An operation that leads to `name` through the fragments of `path`, each of which spreads the next
one. They are all defined, and none of them is passed twice.
-/
structure OpenPath (document : Document) (path : List String) (name : String) : Prop where
  opened : ∀ outermost ∈ (path ++ [name]).head?, document.Opens outermost
  linked : (path ++ [name]).IsChain document.Spreads
  defined : ∀ outer ∈ path, ∃ fragment, document.lastFragment? outer = some fragment
  distinct : path.Nodup

/-- A path from an operation that ends with a name that it has passed before. -/
def IsCycle (document : Document) (path : List String) : Prop :=
  ∃ passed last, path = passed ++ [last] ∧ document.OpenPath passed last ∧ last ∈ passed

variable {document : Document} {path : List String} {name inner : String}

/-- Names that the operations open and that spread no others are all that the operations reach. -/
theorem Reaches.mem_of_closed {names : List String} (reached : document.Reaches name)
    (opened : ∀ operation ∈ document.operations, spreadsEach operation.selections ⊆ names)
    (closed : ∀ outer ∈ names, ∀ fragment ∈ document.lastFragment? outer,
      spreadsEach fragment.selections ⊆ names) : name ∈ names := by
  induction reached with
  | opened opens =>
      rcases opens with ⟨operation, member, spread⟩
      exact opened operation member spread
  | through _ spreads ih =>
      rcases spreads with ⟨fragment, found, spread⟩
      exact closed _ ih fragment found spread

theorem OpenPath.nil (opens : document.Opens name) : document.OpenPath [] name where
  opened := by simpa using opens
  linked := List.isChain_singleton name
  defined := by simp
  distinct := List.nodup_nil

theorem OpenPath.append (openPath : document.OpenPath path name) (closed : name ∉ path)
    (spreads : document.Spreads name inner) : document.OpenPath (path ++ [name]) inner where
  opened := by
    intro outermost first
    apply openPath.opened
    simpa [List.head?_append] using first
  linked := by
    rw [List.isChain_append]
    refine ⟨openPath.linked, List.isChain_singleton inner, ?_⟩
    simpa using spreads
  defined := by
    intro outer onPath
    rcases List.mem_append.mp onPath with earlier | last
    · exact openPath.defined outer earlier
    · rcases spreads with ⟨fragment, found, _⟩
      rw [List.mem_singleton] at last
      subst outer
      exact ⟨fragment, found⟩
  distinct := by
    rw [← List.concat_eq_append, List.nodup_concat]
    exact ⟨closed, openPath.distinct⟩

theorem reaches_of_isChain (reached : document.Reaches name)
    (linked : (name :: path).IsChain document.Spreads) :
    ∀ later ∈ path, document.Reaches later := by
  induction path generalizing name with
  | nil => simp
  | cons next rest ih =>
      rw [List.isChain_cons_cons] at linked
      have nextReached := Reaches.through reached linked.1
      intro later member
      rcases List.mem_cons.mp member with rfl | inRest
      · exact nextReached
      · exact ih nextReached linked.2 later inRest

theorem OpenPath.reaches (openPath : document.OpenPath path name) : document.Reaches name := by
  rcases path with _ | ⟨outermost, path⟩
  · exact .opened (openPath.opened name rfl)
  · have first := Reaches.opened (openPath.opened outermost rfl)
    exact reaches_of_isChain first openPath.linked name (by simp)

theorem transGen_of_isChain (linked : (name :: path).IsChain document.Spreads) :
    ∀ later ∈ path, Relation.TransGen document.Spreads name later := by
  induction path generalizing name with
  | nil => simp
  | cons next rest ih =>
      rw [List.isChain_cons_cons] at linked
      intro later member
      rcases List.mem_cons.mp member with rfl | inRest
      · exact .single linked.1
      · exact .head linked.1 (ih linked.2 later inRest)

/-- A cycle gives a fragment that an operation leads to and that leads to itself. -/
theorem IsCycle.exists_transGen_self (cycle : document.IsCycle path) :
    ∃ name, document.Reaches name ∧ Relation.TransGen document.Spreads name name := by
  rcases cycle with ⟨passed, last, rfl, openPath, repeated⟩
  refine ⟨last, openPath.reaches, ?_⟩
  rcases List.append_of_mem repeated with ⟨before, after, rfl⟩
  have linked := openPath.linked
  rw [List.append_assoc] at linked
  exact transGen_of_isChain linked.right_of_append last (by simp)

end QueryPrep.Graphql.Document

namespace QueryPrep.Inline.FragmentMap

open QueryPrep.Graphql

variable {document : Document} {map : FragmentMap} {strictness : Strictness}

theorem find?_put (fragment : FragmentDefinition) (fragments : List FragmentDefinition)
    (name : String) :
    (put fragment fragments).find? (·.name.text == name) =
      if fragment.name.text = name then some fragment
      else fragments.find? (·.name.text == name) := by
  induction fragments with
  | nil => by_cases same : fragment.name.text = name <;> simp [put, same]
  | cons first rest ih =>
      rw [put]
      split
      case isTrue replaced =>
          by_cases same : fragment.name.text = name <;> simp [replaced, same]
      case isFalse kept =>
          by_cases same : first.name.text = name
          · have differs : fragment.name.text ≠ name := by
              intro alsoSame
              exact kept (Name.ext (same.trans alsoSame.symm))
            simp [same, differs]
          · simp [same, ih]

theorem ofFragments_append_singleton (fragments : List FragmentDefinition)
    (last : FragmentDefinition) :
    ofFragments (fragments ++ [last]) = (ofFragments fragments).insert last := by
  rw [ofFragments, List.foldl_append]
  rfl

/-- In the map of a list of fragments, a name stands for the last of the fragments that have it. -/
theorem find?_ofFragments (fragments : List FragmentDefinition) (name : String) :
    (ofFragments fragments).find? name = fragments.reverse.find? (·.name.text == name) := by
  induction fragments using List.reverseRecOn with
  | nil => rfl
  | append_singleton fragments last ih =>
      have found := find?_put last (ofFragments fragments).fragments name
      rw [← FragmentMap.find?, ih] at found
      rw [ofFragments_append_singleton, List.reverse_append, List.reverse_singleton,
        List.singleton_append]
      refine found.trans ?_
      by_cases same : last.name.text = name <;> simp [same]

theorem find?_of_ofDocument (mapped : ofDocument strictness document = .ok map) (name : String) :
    map.find? name = document.lastFragment? name := by
  have same : ofFragments document.fragments = map := by
    unfold ofDocument at mapped
    split at mapped
    case h_1 => simp at mapped
    case h_2 => simpa using mapped
  rw [← same, find?_ofFragments]
  rfl

theorem ofDocument_lenient (document : Document) :
    ofDocument .lenient document = .ok (ofFragments document.fragments) := rfl

end QueryPrep.Inline.FragmentMap
