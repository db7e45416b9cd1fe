import QueryPrep.Proofs.Source.MatchedBraces
import QueryPrep.Proofs.Source.Resplitting

/-!
# Where the scanner agrees with the parser

The parser knows what it reads; the scanner only looks for keywords and counts braces. On a text
whose definitions are all named queries and fragments they find the same definitions, as long as
nothing that the scanner does not understand gets in its way: no keyword outside of the definitions,
nothing but blanks between a keyword and its name, no brace before the brace that opens a body, and
no lone brace in a string or a comment of a body.
-/

namespace QueryPrep.Source

open QueryPrep.Graphql QueryPrep.Text

/-- The kind and the name of a definition, if it is a named query or a fragment. -/
def outline? : Definition → Option (DefinitionKind × Name)
  | .operation operation =>
      match operation.kind, operation.name with
      | .query, some name => some (.query, name)
      | _, _ => none
  | .fragment fragment => some (.fragment, fragment.name)
  | .typeSystem => none

/-- The definition in its textual form, from its keyword to its closing brace. -/
def rawDefinition? (located : LocatedDefinition) : Option RawDefinition :=
  (outline? located.definition).map fun (kind, name) =>
    ⟨kind, name.text, String.ofList located.source⟩

/-- Does an object occur in a definition before its selection set? -/
def headerHoldsObject : Definition → Bool
  | .operation operation => operation.headerHoldsObject
  | .fragment fragment => fragment.headerHoldsObject
  | .typeSystem => false

def tokensOf (located : LocatedDefinition) : List Token :=
  located.start.toList.take (located.start.length - located.behind.length)

def isOpening (token : Token) : Bool :=
  token.lexeme == .punctuator .braceOpen

/-- The text from the first word of a definition on. -/
def ahead (located : LocatedDefinition) : List Char :=
  match located.start with
  | .token token _ => token.source
  | _ => []

/-- What stands before, between and behind the definitions of a text, descriptions included. -/
def gaps (text : List Char) : List LocatedDefinition → List (List Char)
  | [] => [text]
  | located :: rest =>
      text.take (text.length - (ahead located).length) ::
        gaps ((ahead located).drop located.source.length) rest

/--
The definition is written such that counting braces will do. Where no object stands in front of the
body, the tokens before the first opening brace are the header.
-/
structure PlainlyWritten (located : LocatedDefinition) : Prop where
  spaced : ∀ keyword ∈ (tokensOf located).head?, keyword.margin.all isBlank = true
  noObject : headerHoldsObject located.definition = false
  header : ∀ token ∈ (tokensOf located).takeWhile (!isOpening ·), '\x7b' ∉ foreign token
  body : Matched (((tokensOf located).dropWhile (!isOpening ·)).dropLast.flatMap foreign)

instance (located : LocatedDefinition) : Decidable (PlainlyWritten located) :=
  decidable_of_iff
    ((∀ keyword ∈ (tokensOf located).head?, keyword.margin.all isBlank = true) ∧
      headerHoldsObject located.definition = false ∧
      (∀ token ∈ (tokensOf located).takeWhile (!isOpening ·), '\x7b' ∉ foreign token) ∧
      Matched (((tokensOf located).dropWhile (!isOpening ·)).dropLast.flatMap foreign))
    ⟨fun ⟨spaced, noObject, header, body⟩ => ⟨spaced, noObject, header, body⟩,
      fun ⟨spaced, noObject, header, body⟩ => ⟨spaced, noObject, header, body⟩⟩

/-- The tokens of a definition, from the keyword to the closing brace. -/
structure TokenLayout (keyword : String) (name : Name) (word named : Token) (header : List Token)
    (opening : Token) (inner : List Token) (closing : Token) : Prop where
  isKeyword : ∃ spelt, word.lexeme = .name spelt ∧ spelt.text = keyword
  isName : named.lexeme = .name name
  braceless : Braceless header
  opens : opening.lexeme = .punctuator .braceOpen
  balanced : Balanced inner
  closes : closing.lexeme = .punctuator .braceClose

section Layout

variable {keyword : String} {name : Name} {plain : Prop} {before after : TokenStream}

theorem exists_tokenLayout (written : Parser.IsWritten keyword name plain before after)
    (holds : plain) :
    ∃ word named header opening inner closing,
      before = .prepend (word :: named :: (header ++ opening :: inner) ++ [closing]) after ∧
      TokenLayout keyword name word named header opening inner closing := by
  rcases written with ⟨spelt, opened, afterName, headed, sameWord, ⟨word, rfl, isWord⟩,
    ⟨named, rfl, isName⟩, ⟨header, rfl, _, braceless⟩, ⟨afterOpening, closed,
    ⟨opening, rfl, opens⟩, ⟨inner, rfl, balanced, _⟩, ⟨closing, rfl, closes⟩⟩⟩
  refine ⟨word, named, header, opening, inner, closing, by simp, ?_⟩
  exact ⟨⟨spelt, isWord, sameWord⟩, isName, braceless holds, opens, balanced, closes⟩

theorem isWritten_of_outline? {definition : Definition} {kind : DefinitionKind}
    (takes : Parser.TakesDefinition definition before after)
    (outline : outline? definition = some (kind, name)) :
    Parser.IsWritten kind.keyword name (headerHoldsObject definition = false) before after := by
  cases definition with
  | typeSystem => cases outline
  | fragment fragment =>
      cases outline
      exact takes.2 fragment rfl
  | operation operation =>
      simp only [outline?] at outline
      split at outline
      · rename_i isQuery isNamed
        cases outline
        exact takes.1 operation name rfl isQuery isNamed
      · cases outline

theorem isOpening_eq_false_of_isBrace {token : Token} (noBrace : token.lexeme.isBrace = false) :
    isOpening token = false := by
  cases opens : isOpening token with
  | false => rfl
  | true =>
      have isBrace : token.lexeme = .punctuator .braceOpen := by simpa [isOpening] using opens
      rw [isBrace] at noBrace
      cases noBrace

variable {word named opening closing : Token} {header inner : List Token}

theorem TokenLayout.split_eq
    (layout : TokenLayout keyword name word named header opening inner closing) :
    let tokens := word :: named :: (header ++ opening :: inner) ++ [closing]
    tokens.takeWhile (!isOpening ·) = word :: named :: header ∧
      tokens.dropWhile (!isOpening ·) = opening :: inner ++ [closing] := by
  have before : ∀ token ∈ word :: named :: header, (!isOpening token) = true := by
    rcases layout.isKeyword with ⟨spelt, isWord, _⟩
    simp only [List.forall_mem_cons]
    refine ⟨by simp [isOpening, isWord], by simp [isOpening, layout.isName], ?_⟩
    intro token member
    simp [isOpening_eq_false_of_isBrace (layout.braceless token member)]
  have stops : isOpening opening = true := by simp [isOpening, layout.opens]
  have regroup : word :: named :: (header ++ opening :: inner) ++ [closing] =
      word :: named :: header ++ opening :: (inner ++ [closing]) := by simp
  rw [regroup]
  constructor
  · rw [List.takeWhile_append_of_pos before]
    simp [stops]
  · rw [List.dropWhile_append_of_pos before]
    simp [stops]

/-- A header has no opening brace, neither in its tokens nor in what is foreign to them. -/
theorem noBrace_spellEach {tokens : List Token} (read : ∀ token ∈ tokens, token.IsRead)
    (braceless : Braceless tokens) (free : ∀ token ∈ tokens, '\x7b' ∉ foreign token) :
    '\x7b' ∉ spellEach tokens := by
  intro member
  rcases List.mem_flatMap.mp member with ⟨token, inTokens, inToken⟩
  have absent := free token inTokens
  cases quoted : isString token.lexeme with
  | true =>
      rw [foreign, quoted] at absent
      exact absent inToken
  | false =>
      rcases List.mem_append.mp inToken with inText | inMargin
      · have plain := braceless_text (read token inTokens) (braceless token inTokens) quoted
        exact (plain _ inText).1 rfl
      · apply absent
        rw [foreign, quoted]
        exact inMargin

theorem isBlank_eq_false_of_isNameContinue {character : Char}
    (nameLike : isNameContinue character = true) : isBlank character = false := by
  have bounds : 48 ≤ character.toNat ∧ character.toNat ≤ 122 := by
    rcases (Bool.or_eq_true _ _).mp nameLike with alphanumeric | underscore
    · rcases (Bool.or_eq_true _ _).mp alphanumeric with letter | digit
      · rcases (Bool.or_eq_true _ _).mp letter with upper | lower
        · have range : 65 ≤ character.toNat ∧ character.toNat ≤ 90 := of_decide_eq_true upper
          omega
        · rcases (Bool.and_eq_true _ _).mp lower with ⟨low, high⟩
          have range : 97 ≤ character.toNat ∧ character.toNat ≤ 122 :=
            ⟨of_decide_eq_true low, of_decide_eq_true high⟩
          omega
      · rcases (Bool.and_eq_true _ _).mp digit with ⟨low, high⟩
        have range : 48 ≤ character.toNat ∧ character.toNat ≤ 57 :=
          ⟨of_decide_eq_true low, of_decide_eq_true high⟩
        omega
    · rw [beq_iff_eq.mp underscore]
      decide
  simp only [isBlank, blankRanges, List.any_cons, List.any_nil, Bool.or_false,
    Bool.or_eq_false_iff, Bool.and_eq_false_iff, decide_eq_false_iff_not]
  omega

/-- A definition that is written plainly stands alone in the text that its tokens make up. -/
theorem TokenLayout.standalone {kind : DefinitionKind} {word named opening closing : Token}
    {header inner : List Token} {text rest : List Char}
    (layout : TokenLayout kind.keyword name word named header opening inner closing)
    (lexes : Lexes text (word :: named :: (header ++ opening :: inner) ++ [closing]) rest)
    (spaced : word.margin.all isBlank = true)
    (headerFree : ∀ token ∈ word :: named :: header, '\x7b' ∉ foreign token)
    (bodyMatched : Matched ((opening :: inner).flatMap foreign)) :
    Standalone ⟨kind, name.text, String.ofList
      (spellEach (word :: named :: (header ++ opening :: inner)) ++ closing.text)⟩ := by
  have read : ∀ token ∈ word :: named :: (header ++ opening :: inner) ++ [closing],
      token.IsRead := fun token member => lexes.isRead_of_mem member
  simp only [List.cons_append, List.append_assoc, List.forall_mem_cons, List.forall_mem_append]
    at read headerFree
  rcases read with ⟨wordRead, namedRead, headerRead, openingRead, innerRead, closingRead, _⟩
  rcases layout.isKeyword with ⟨spelt, isWord, same⟩
  have wordText := (Token.text_of_name wordRead isWord).trans (congrArg String.toList same)
  have nameText := Token.text_of_name namedRead layout.isName
  have openingText := Token.text_of_punctuator openingRead layout.opens
  have closingText := Token.text_of_punctuator closingRead layout.closes
  have nameLike : ∀ character ∈ name.text.toList, isNameContinue character = true :=
    fun _ member => Name.isNameContinue_of_mem _ member
  refine ⟨word.margin, named.margin ++ spellEach header,
    opening.margin ++ spellEach inner ++ ['\x7d'], ?content, ?named, name.toList_ne_nil,
    ?noBrace, ?closes⟩
  case content =>
    simp [spellEach_cons, spellEach_append, wordText, nameText, openingText, closingText,
      Punctuator.text]
  case named =>
    have following : named.following = named.margin ++ spellEach header ++
        '\x7b' :: (opening.margin ++ spellEach inner ++ ['\x7d']) ++ rest := by
      cases lexes with
      | cons _ _ later =>
          cases later with
          | cons _ _ later =>
              rw [named.following_eq, later.skipIgnored_eq]
              simp [spellEach_cons, spellEach_append, openingText, closingText, Punctuator.text]
    refine ⟨rfl, List.all_eq_true.mp spaced, ?_, nameLike, ?_⟩
    · rw [List.head?_append_of_ne_nil _ name.toList_ne_nil]
      intro character first
      exact isBlank_eq_false_of_isNameContinue (nameLike character (List.mem_of_head? first))
    · have maximal := namedRead.maximal name layout.isName
      rwa [following, List.head?_append_of_ne_nil _ (by simp)] at maximal
  case noBrace =>
    have margin : '\x7b' ∉ named.margin := by
      simpa [foreign, layout.isName, isString] using headerFree.2.1
    have tokens := noBrace_spellEach headerRead layout.braceless headerFree.2.2
    simp [margin, tokens]
  case closes =>
    have matched : Matched (opening.margin ++ spellEach inner) := by
      rw [Matched, List.flatMap_cons, foreign_of_punctuator layout.opens, openBraces?_append,
        Option.bind_eq_some_iff] at bodyMatched
      rcases bodyMatched with ⟨left, ofMargin, ofInner⟩
      rw [Matched, openBraces?_append, ofMargin]
      exact openBraces?_spellEach layout.balanced innerRead 0 ofInner
    exact matched.closingOffset?_eq

end Layout

section Agreement

variable {text : List Char} {located : LocatedDefinition}

/-- A plainly written definition is found by the scanner as the parser has read it. -/
theorem standalone_of_takesDefinition {raw : RawDefinition}
    (takes : Parser.TakesDefinition located.definition located.start located.behind)
    (stream : located.start = .ofText text) (outlined : rawDefinition? located = some raw)
    (plain : PlainlyWritten located) :
    ∃ rest, located.behind = .ofText rest ∧ ahead located = located.source ++ rest ∧
      ahead located <:+ text ∧ raw.content.toList = located.source ∧ Standalone raw := by
  rcases Option.map_eq_some_iff.mp outlined with ⟨⟨kind, name⟩, outline, rfl⟩
  rcases exists_tokenLayout (isWritten_of_outline? takes outline) plain.noObject with
    ⟨word, named, header, opening, inner, closing, split, layout⟩
  rcases TokenStream.exists_lexes (stream.symm.trans split) with ⟨rest, lexes, behind⟩
  have source : located.source =
      spellEach (word :: named :: (header ++ opening :: inner)) ++ closing.text := by
    rw [LocatedDefinition.source, split]
    exact lexes.sourceBefore_prepend
  have tokens : tokensOf located =
      word :: named :: (header ++ opening :: inner) ++ [closing] := by
    rw [tokensOf, split, TokenStream.toList_prepend, TokenStream.length_prepend,
      Nat.add_sub_cancel, List.take_left]
  have start : ahead located = skipIgnored false text := by
    cases lexes with
    | cons starts _ _ =>
        rw [ahead, split, starts]
        rfl
  refine ⟨rest, behind, ?_, ?_, by simp, ?_⟩
  · rw [start, lexes.skipIgnored_eq, source, List.append_assoc]
  · rw [start]
    exact suffix_skipIgnored false text
  · rcases layout.split_eq with ⟨beforeBrace, fromBrace⟩
    rcases plain with ⟨spaced, _, headerFree, bodyMatched⟩
    rw [tokens] at spaced headerFree bodyMatched
    rw [beforeBrace] at headerFree
    rw [fromBrace, List.dropLast_concat] at bodyMatched
    rw [source]
    exact layout.standalone lexes (spaced word rfl) headerFree bodyMatched

theorem interleaves_of_inOrder {locatedEach : List LocatedDefinition}
    {definitions : List RawDefinition} (inOrder : Parser.InOrder (.ofText text) locatedEach)
    (outlined : locatedEach.map rawDefinition? = definitions.map some)
    (plain : ∀ located ∈ locatedEach, PlainlyWritten located)
    (free : ∀ gap ∈ gaps text locatedEach, KeywordFree gap) : Interleaves text definitions := by
  induction locatedEach generalizing text definitions with
  | nil =>
      have none : definitions = [] := by simpa using outlined.symm
      rw [none]
      exact .gap (free text (by simp [gaps]))
  | cons located others ih =>
      cases definitions with
      | nil => simp at outlined
      | cons raw definitions =>
          rw [List.map_cons, List.map_cons, List.cons.injEq] at outlined
          rw [List.forall_mem_cons] at plain
          rw [gaps, List.forall_mem_cons] at free
          cases inOrder with
          | cons described takes later =>
              rcases described with ⟨passed, stream, _⟩
              rcases TokenStream.exists_lexes stream with ⟨middle, before, start⟩
              rcases standalone_of_takesDefinition takes start outlined.1 plain.1 with
                ⟨rest, behind, split, suffix, content, standalone⟩
              rcases suffix.trans before.suffix with ⟨gap, whole⟩
              have cut : text.take (text.length - (ahead located).length) = gap := by
                rw [← whole, List.length_append, Nat.add_sub_cancel, List.take_left]
              rw [cut, split, List.drop_left] at free
              rw [behind] at later
              rw [← whole, split, ← content]
              exact .definition free.1 standalone (ih later outlined.2 plain.2 free.2)

end Agreement

/--
Splitting finds the definitions that the parser reads, one for one and in their order, each with its
kind, its name and its source. It needs definitions that are written plainly, and no keyword outside
of them.
-/
theorem splitDefinitions_of_parseLocated {text : String} {located : List LocatedDefinition}
    {definitions : List RawDefinition} (parsed : parseLocated text = .ok located)
    (outlined : located.map rawDefinition? = definitions.map some)
    (plain : ∀ definition ∈ located, PlainlyWritten definition)
    (free : ∀ gap ∈ gaps text.toList located, KeywordFree gap) :
    splitDefinitions text = .ok definitions := by
  apply splitDefinitions_of_interleaves
  exact interleaves_of_inOrder (inOrder_of_parseLocated parsed) outlined plain free

section Sample

def locatedIn (text : String) : List LocatedDefinition :=
  (parseLocated text).toOption.getD []

theorem parseLocated_eq_ok_locatedIn {text : String} (parses : (parseLocated text).isOk = true) :
    parseLocated text = .ok (locatedIn text) := by
  cases parsed : parseLocated text with
  | error error => simp [parsed, Except.isOk, Except.toBool] at parses
  | ok located => simp [locatedIn, parsed, Except.toOption]

def petsContent : String :=
  "query Pets($limit: Int = 5) \x7b pets(s: \"\x7b\x7d\", o: \x7bx: 1\x7d) \x7b\n" ++
    "  ...Name # \x7b\x7d\n\x7d \x7d"

def nameContent : String :=
  "fragment Name on Pet \x7b name \x7d"

/-- Braces occur in an object, and in a string and a comment, where they match. -/
def petsText : String :=
  petsContent ++ " # end\n" ++ nameContent

def petsDefinitions : List RawDefinition :=
  [⟨.query, "Pets", petsContent⟩, ⟨.fragment, "Name", nameContent⟩]

theorem splitDefinitions_petsText :
    parseLocated petsText = .ok (locatedIn petsText) ∧
      (locatedIn petsText).map rawDefinition? = petsDefinitions.map some ∧
      splitDefinitions petsText = .ok petsDefinitions := by
  have parsed := parseLocated_eq_ok_locatedIn (by decide +kernel : (parseLocated petsText).isOk)
  have outlined : (locatedIn petsText).map rawDefinition? = petsDefinitions.map some := by
    decide +kernel
  have plain : ∀ located ∈ locatedIn petsText, PlainlyWritten located := by decide +kernel
  have free : ∀ gap ∈ gaps petsText.toList (locatedIn petsText), KeywordFree gap := by
    decide +kernel
  exact ⟨parsed, outlined, splitDefinitions_of_parseLocated parsed outlined plain free⟩

/-- A comment of this query holds a closing brace. -/
def commentText : String :=
  "query A \x7b a # \x7d\n b \x7d"

def commentDefinitions : List RawDefinition := [⟨.query, "A", commentText⟩]

/-- The scanner takes the brace of the comment for the end of the body. -/
theorem splitDefinitions_commentText_ne :
    ∃ located, parseLocated commentText = .ok located ∧
      located.map rawDefinition? = commentDefinitions.map some ∧
      splitDefinitions commentText ≠ .ok commentDefinitions := by
  have parsed := parseLocated_eq_ok_locatedIn (by decide +kernel : (parseLocated commentText).isOk)
  refine ⟨locatedIn commentText, parsed, ?_, ?_⟩
  · decide +kernel
  · decide +kernel

end Sample

end QueryPrep.Source
