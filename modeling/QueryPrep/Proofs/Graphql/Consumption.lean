import QueryPrep.Graphql.Parser.Basic
import QueryPrep.Proofs.Graphql.Tokens

/-!
# What a parser takes

A parser that succeeds has taken tokens off the front of the stream. As far as braces are concerned,
the tokens between the streams before and after are described by `Apart`, whose closure properties
are those of sequences of parsers. A parser of several steps is taken apart into them
(`exists_of_run_bind`), and what the steps take is put together again.
-/

namespace QueryPrep.Graphql

def Lexeme.isBrace : Lexeme → Bool
  | .punctuator .braceOpen => true
  | .punctuator .braceClose => true
  | _ => false

/-- Every opening brace among the tokens has its closing brace, and the other way round. -/
inductive Balanced : List Token → Prop
  | nil : Balanced []
  | plain {token : Token} {rest : List Token} (plain : token.lexeme.isBrace = false)
      (later : Balanced rest) : Balanced (token :: rest)
  | braces {opening closing : Token} {inner rest : List Token}
      (opens : opening.lexeme = .punctuator .braceOpen)
      (closes : closing.lexeme = .punctuator .braceClose) (within : Balanced inner)
      (later : Balanced rest) : Balanced (opening :: (inner ++ closing :: rest))

def Braceless (tokens : List Token) : Prop :=
  ∀ token ∈ tokens, token.lexeme.isBrace = false

/-- The stream begins with this token, and `after` is left of it. -/
def Next (lexeme : Lexeme) (before after : TokenStream) : Prop :=
  ∃ token, before = .token token after ∧ token.lexeme = lexeme

/-- Between the streams there are balanced tokens, and no braces at all if `plain` holds. -/
def Apart (plain : Prop) (before after : TokenStream) : Prop :=
  ∃ tokens, before = .prepend tokens after ∧ Balanced tokens ∧ (plain → Braceless tokens)

section Tokens

variable {first second : List Token}

theorem Balanced.append (firstBalanced : Balanced first) (secondBalanced : Balanced second) :
    Balanced (first ++ second) := by
  induction firstBalanced with
  | nil => exact secondBalanced
  | plain noBrace later ih => exact .plain noBrace ih
  | braces opens closes within later _ ih =>
      rw [List.cons_append, List.append_assoc, List.cons_append]
      exact .braces opens closes within ih

theorem Braceless.append (firstPlain : Braceless first) (secondPlain : Braceless second) :
    Braceless (first ++ second) := by
  intro token member
  rcases List.mem_append.mp member with inFirst | inSecond
  · exact firstPlain token inFirst
  · exact secondPlain token inSecond

end Tokens

section Streams

variable {plain other : Prop} {before between after : TokenStream} {lexeme : Lexeme}

theorem Apart.refl : Apart plain before before :=
  ⟨[], rfl, .nil, by simp [Braceless]⟩

theorem Apart.trans (first : Apart plain before between) (second : Apart plain between after) :
    Apart plain before after := by
  rcases first with ⟨tokens, rfl, balanced, braceless⟩
  rcases second with ⟨more, rfl, moreBalanced, moreBraceless⟩
  refine ⟨tokens ++ more, by simp, balanced.append moreBalanced, ?_⟩
  intro holds
  exact (braceless holds).append (moreBraceless holds)

theorem Apart.imp (weaker : other → plain) (apart : Apart plain before after) :
    Apart other before after := by
  rcases apart with ⟨tokens, split, balanced, braceless⟩
  exact ⟨tokens, split, balanced, fun holds => braceless (weaker holds)⟩

theorem Next.apart (next : Next lexeme before after) (noBrace : lexeme.isBrace = false) :
    Apart plain before after := by
  rcases next with ⟨token, rfl, rfl⟩
  refine ⟨[token], rfl, .plain noBrace .nil, ?_⟩
  intro _ member inTokens
  rw [List.mem_singleton] at inTokens
  rwa [inTokens]

/-- What stands between two braces is balanced together with them. -/
theorem Apart.braces {opened closed : TokenStream}
    (opens : Next (.punctuator .braceOpen) before opened) (within : Apart other opened closed)
    (closes : Next (.punctuator .braceClose) closed after) : Apart False before after := by
  rcases opens with ⟨opening, rfl, openingBrace⟩
  rcases within with ⟨tokens, rfl, balanced, _⟩
  rcases closes with ⟨closing, rfl, closingBrace⟩
  refine ⟨opening :: (tokens ++ [closing]), by simp, ?_, False.elim⟩
  exact .braces openingBrace closingBrace balanced .nil

end Streams

namespace Parser

variable {α β : Type} {before after : TokenStream}

theorem exists_of_run_bind {first : Parser α} {next : α → Parser β} {answer : β}
    (ran : (first >>= next).run before = .ok (answer, after)) :
    ∃ between firstAnswer, first.run before = .ok (firstAnswer, between) ∧
      (next firstAnswer).run between = .ok (answer, after) := by
  rw [StateT.run_bind] at ran
  rcases exists_of_bind_eq_ok ran with ⟨⟨firstAnswer, between⟩, firstRan, nextRan⟩
  exact ⟨between, firstAnswer, firstRan, nextRan⟩

theorem exists_of_run_map {parser : Parser α} {change : α → β} {answer : β}
    (ran : (change <$> parser).run before = .ok (answer, after)) :
    ∃ found, parser.run before = .ok (found, after) ∧ change found = answer := by
  rw [StateT.run_map] at ran
  cases inner : parser.run before with
  | error error => simp [inner] at ran
  | ok result =>
      simp only [inner] at ran
      cases ran
      exact ⟨result.1, rfl, rfl⟩

section Single

variable {lexeme : Lexeme} {mark : Punctuator} {keyword : String}

def lexeme? : TokenStream → Found
  | .token token _ => some token.lexeme
  | _ => none

theorem run_after_peek {next : Found → Parser α} {answer : α}
    (ran : (peek >>= next).run before = .ok (answer, after)) :
    (next (lexeme? before)).run before = .ok (answer, after) := by
  cases before <;> exact ran

theorem run_after_atPunctuator {next : Bool → Parser α} {answer : α}
    (ran : (atPunctuator mark >>= next).run before = .ok (answer, after)) :
    (next (lexeme? before == some (.punctuator mark))).run before = .ok (answer, after) := by
  cases before <;> exact ran

theorem next_of_advance (current : lexeme? before = some lexeme)
    (ran : advance.run before = .ok ((), after)) : Next lexeme before after := by
  cases before with
  | finished => cases current
  | failed error => cases current
  | token token rest =>
      rw [lexeme?, Option.some.injEq] at current
      cases rest with
      | failed error => cases ran
      | finished =>
          cases ran
          exact ⟨token, rfl, current⟩
      | token next later =>
          cases ran
          exact ⟨token, rfl, current⟩

theorem of_skipPunctuator {taken : Bool}
    (ran : (skipPunctuator mark).run before = .ok (taken, after)) :
    taken = true ∧ Next (.punctuator mark) before after ∨ taken = false ∧ before = after := by
  replace ran := run_after_atPunctuator ran
  split at ran
  · rename_i isHere
    rcases exists_of_run_bind ran with ⟨next, _, advanced, ran⟩
    cases ran
    exact Or.inl ⟨rfl, next_of_advance (by simpa using isHere) advanced⟩
  · cases ran
    exact Or.inr ⟨rfl, rfl⟩

theorem next_of_expectPunctuator (ran : (expectPunctuator mark).run before = .ok ((), after)) :
    Next (.punctuator mark) before after := by
  rcases exists_of_run_bind ran with ⟨between, taken, takenRan, ran⟩
  rcases of_skipPunctuator takenRan with ⟨rfl, next⟩ | ⟨rfl, _⟩
  · cases ran
    exact next
  · rcases exists_of_run_bind ran with ⟨_, _, _, ran⟩
    cases ran

theorem next_of_expectName {name : Name} (ran : expectName.run before = .ok (name, after)) :
    Next (.name name) before after := by
  replace ran := run_after_peek ran
  split at ran
  · rename_i current
    rcases exists_of_run_bind ran with ⟨next, _, advanced, ran⟩
    cases ran
    exact next_of_advance current advanced
  · cases ran

theorem run_peekName_eq_ok {name : Option Name} (ran : peekName.run before = .ok (name, after)) :
    before = after ∧ ∀ word, name = some word → lexeme? before = some (.name word) := by
  replace ran := run_after_peek ran
  split at ran
  · rename_i current
    cases ran
    exact ⟨rfl, by rintro _ ⟨⟩; exact current⟩
  · cases ran
    exact ⟨rfl, by simp⟩

theorem of_skipKeyword {taken : Bool}
    (ran : (skipKeyword keyword).run before = .ok (taken, after)) :
    (taken = true ∧ ∃ name, name.text = keyword ∧ Next (.name name) before after) ∨
      taken = false ∧ before = after := by
  rcases exists_of_run_bind ran with ⟨between, here, hereRan, ran⟩
  rcases exists_of_run_bind hereRan with ⟨same, name, nameRan, hereRan⟩
  rcases run_peekName_eq_ok nameRan with ⟨rfl, current⟩
  cases hereRan
  split at ran
  · rename_i isHere
    rcases exists_of_run_bind ran with ⟨next, _, advanced, ran⟩
    cases ran
    cases name with
    | none => simp at isHere
    | some word =>
        have named : word.text = keyword := by simpa using isHere
        exact Or.inl ⟨rfl, word, named, next_of_advance (current word rfl) advanced⟩
  · cases ran
    exact Or.inr ⟨rfl, rfl⟩

theorem next_of_expectKeyword (ran : (expectKeyword keyword).run before = .ok ((), after)) :
    ∃ name, name.text = keyword ∧ Next (.name name) before after := by
  rcases exists_of_run_bind ran with ⟨between, taken, takenRan, ran⟩
  rcases of_skipKeyword takenRan with ⟨rfl, next⟩ | ⟨rfl, _⟩
  · cases ran
    exact next
  · rcases exists_of_run_bind ran with ⟨_, _, _, ran⟩
    cases ran

theorem apart_of_literal? {plain : Prop} {literal : Option StringLiteral}
    (ran : literal?.run before = .ok (literal, after)) : Apart plain before after := by
  replace ran := run_after_peek ran
  split at ran
  · rename_i current
    rcases exists_of_run_bind ran with ⟨next, _, advanced, ran⟩
    cases ran
    exact (next_of_advance current advanced).apart rfl
  · rename_i current
    rcases exists_of_run_bind ran with ⟨next, _, advanced, ran⟩
    cases ran
    exact (next_of_advance current advanced).apart rfl
  · cases ran
    exact .refl

end Single

section Sequences

variable {item : Parser α} {plain : α → Prop} {answers : List α} {rounds : Nat}
variable {opening closing : Punctuator}

/-- The parser takes balanced tokens, and no braces for an answer that is plain. -/
def TakesBalanced (parser : Parser α) (plain : α → Prop) : Prop :=
  ∀ {before after : TokenStream} {answer : α}, parser.run before = .ok (answer, after) →
    Apart (plain answer) before after

theorem apart_of_itemsWithin (takes : TakesBalanced item plain)
    (ran : (itemsWithin closing item rounds).run before = .ok (answers, after)) :
    ∃ closed, Apart (∀ answer ∈ answers, plain answer) before closed ∧
      Next (.punctuator closing) closed after := by
  induction rounds generalizing before answers with
  | zero =>
      rcases exists_of_run_bind ran with ⟨_, _, _, ran⟩
      cases ran
  | succ rounds ih =>
      rcases exists_of_run_bind ran with ⟨between, first, firstRan, ran⟩
      rcases exists_of_run_bind ran with ⟨behind, taken, takenRan, ran⟩
      rcases of_skipPunctuator takenRan with ⟨rfl, closes⟩ | ⟨rfl, rfl⟩
      · cases ran
        refine ⟨between, (takes firstRan).imp ?_, closes⟩
        intro each
        exact each first List.mem_cons_self
      · rcases exists_of_run_bind ran with ⟨rest, others, othersRan, ran⟩
        cases ran
        rcases ih othersRan with ⟨closed, othersApart, closes⟩
        refine ⟨closed, ((takes firstRan).imp ?_).trans (othersApart.imp ?_), closes⟩
        · intro each
          exact each first List.mem_cons_self
        · intro each answer member
          exact each answer (List.mem_cons_of_mem _ member)

theorem apart_of_itemsUntil (takes : TakesBalanced item plain)
    (ran : (itemsUntil closing item).run before = .ok (answers, after)) :
    ∃ closed, Apart (∀ answer ∈ answers, plain answer) before closed ∧
      Next (.punctuator closing) closed after := by
  rcases exists_of_run_bind ran with ⟨between, stream, got, ran⟩
  cases got
  exact apart_of_itemsWithin takes ran

theorem apart_of_between (takes : TakesBalanced item plain)
    (ran : (between opening closing item).run before = .ok (answers, after)) :
    ∃ opened closed, Next (.punctuator opening) before opened ∧
      Apart (∀ answer ∈ answers, plain answer) opened closed ∧
      Next (.punctuator closing) closed after := by
  rcases exists_of_run_bind ran with ⟨opened, _, openRan, ran⟩
  rcases exists_of_run_bind ran with ⟨behind, taken, takenRan, ran⟩
  have opens := next_of_expectPunctuator openRan
  rcases of_skipPunctuator takenRan with ⟨rfl, closes⟩ | ⟨rfl, rfl⟩
  · cases ran
    exact ⟨opened, opened, opens, .refl, closes⟩
  · rcases apart_of_itemsUntil takes ran with ⟨closed, within, closes⟩
    exact ⟨opened, closed, opens, within, closes⟩

theorem apart_of_optionalBetween (takes : TakesBalanced item plain)
    (openingPlain : (Lexeme.punctuator opening).isBrace = false)
    (closingPlain : (Lexeme.punctuator closing).isBrace = false)
    (ran : (optionalBetween opening closing item).run before = .ok (answers, after)) :
    Apart (∀ answer ∈ answers, plain answer) before after := by
  rcases exists_of_run_bind ran with ⟨opened, taken, takenRan, ran⟩
  rcases of_skipPunctuator takenRan with ⟨rfl, opens⟩ | ⟨rfl, rfl⟩
  · rcases apart_of_itemsUntil takes ran with ⟨closed, within, closes⟩
    exact ((opens.apart openingPlain).trans within).trans (closes.apart closingPlain)
  · cases ran
    exact .refl

theorem apart_of_whileWithin (takes : TakesBalanced item plain)
    (ran : (whileWithin opening item rounds).run before = .ok (answers, after)) :
    Apart (∀ answer ∈ answers, plain answer) before after := by
  induction rounds generalizing before answers with
  | zero =>
      cases ran
      exact .refl
  | succ rounds ih =>
      replace ran := run_after_atPunctuator ran
      split at ran
      · rcases exists_of_run_bind ran with ⟨behind, first, firstRan, ran⟩
        rcases exists_of_run_bind ran with ⟨rest, others, othersRan, ran⟩
        cases ran
        refine ((takes firstRan).imp ?_).trans ((ih othersRan).imp ?_)
        · intro each
          exact each first List.mem_cons_self
        · intro each answer member
          exact each answer (List.mem_cons_of_mem _ member)
      · cases ran
        exact .refl

theorem apart_of_whileAt (takes : TakesBalanced item plain)
    (ran : (whileAt opening item).run before = .ok (answers, after)) :
    Apart (∀ answer ∈ answers, plain answer) before after := by
  rcases exists_of_run_bind ran with ⟨between, stream, got, ran⟩
  cases got
  exact apart_of_whileWithin takes ran

end Sequences

end Parser

end QueryPrep.Graphql
