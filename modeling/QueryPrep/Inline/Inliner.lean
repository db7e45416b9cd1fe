import QueryPrep.Event
import QueryPrep.Graphql.Parser
import QueryPrep.Inline.Expansion

/-!
# Inlining documents

An inliner belongs to one document. It may be asked for several things one after the other, and
what it has expanded for one answer serves the next. Inlining a document asks a fresh inliner for
all of its operations.
-/

namespace QueryPrep.Inline

open QueryPrep.Graphql

/-- A document, its fragments, and those of them that have been expanded so far. -/
structure Inliner where
  document : Document
  fragments : FragmentMap
  cache : Cache

namespace Inliner

/-- A fresh inliner for a document. -/
def start (strictness : Strictness) (document : Document) : Except InlineError Inliner := do
  return ⟨document, ← FragmentMap.ofDocument strictness document, Cache.empty⟩

/-- The outcome of an expansion, and the inliner after it. -/
def run {α : Type} (inliner : Inliner) (expansion : Expansion α) : Except InlineError α × Inliner :=
  match expansion.run inliner.cache with
  | .ok value cache => (.ok value, { inliner with cache })
  | .error error cache => (.error error, { inliner with cache })

/-- The document that holds the operations, with all spreads replaced. -/
def inline (inliner : Inliner) : Except InlineError Document × Inliner :=
  inliner.run do
    return Document.ofOperations
      (← expandOperations inliner.fragments inliner.document.operations)

/-- The expansion of a fragment, when the fragments of `path` are open. -/
def expand (inliner : Inliner) (path : List String) (name : String) :
    Except InlineError (List Selection) × Inliner :=
  inliner.run (expandFragment inliner.fragments path name)

/-- The expansion of a selection set, when the fragments of `path` are open. -/
def expandSet (inliner : Inliner) (path : List String) (selections : List Selection) :
    Except InlineError (List Selection) × Inliner :=
  inliner.run (expandSelections inliner.fragments path selections)

/-- What is reported after a document has been inlined; nothing if that failed. -/
def inlineEvents (outcome : Except InlineError Document × Inliner) : List Event :=
  match outcome.1 with
  | .ok document =>
    [.operationsInlined document.definitions.length outcome.2.cache.entries.length]
  | .error _ => []

end Inliner

/-- The operations of a document with all spreads replaced and all siblings merged. -/
def inlineDocument (strictness : Strictness) (document : Document) :
    Except InlineError Document := do
  (← Inliner.start strictness document).inline.1

/-- What is reported while the fragment map of a document is built. -/
def startEvents (strictness : Strictness) (document : Document) : List Event :=
  (FragmentMap.warnings strictness document).map .fragmentRedefined

/-- What is reported while a document is inlined. -/
def documentEvents (strictness : Strictness) (document : Document) : List Event :=
  match Inliner.start strictness document with
  | .ok inliner => startEvents strictness document ++ Inliner.inlineEvents inliner.inline
  | .error _ => []

/-- A reason why a text cannot be inlined. -/
inductive TextError
  | malformed (error : SyntaxError)
  | refused (error : InlineError)
deriving DecidableEq

/-- The message of an error. -/
def TextError.message : TextError → String
  | .malformed error => error.message
  | .refused error => error.message

/-- The document of a text, inlined and printed. -/
def inlineText (strictness : Strictness) (text : String) : Except TextError String :=
  match Document.parse text with
  | .error error => .error (.malformed error)
  | .ok document =>
    match inlineDocument strictness document with
    | .error error => .error (.refused error)
    | .ok inlined => .ok inlined.print

/-- What is reported while a text is inlined. -/
def textEvents (strictness : Strictness) (text : String) : List Event :=
  match Document.parse text with
  | .error _ => []
  | .ok document => documentEvents strictness document

end QueryPrep.Inline
