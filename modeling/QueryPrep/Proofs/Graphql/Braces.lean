import QueryPrep.Graphql.Parser
import QueryPrep.Proofs.Graphql.Consumption

/-!
# Braces in definitions

Whatever the grammar reads, it reads with balanced braces. Braces belong to selection sets and to
object values, so the header of a definition, which is all that comes before its selection set, has
none as long as no object occurs in it.

Each parser has one lemma, in the order in which the parsers are defined. The last ones place the
definitions of a text in its stream of tokens.
-/

namespace QueryPrep.Graphql

namespace Value

mutual

/-- Does an object occur in the value? -/
def holdsObject : Value → Bool
  | .list values => holdsObjectEach values
  | .object _ => true
  | _ => false

def holdsObjectEach : List Value → Bool
  | [] => false
  | value :: rest => value.holdsObject || holdsObjectEach rest

end

theorem holdsObjectEach_eq_false_iff {values : List Value} :
    holdsObjectEach values = false ↔ ∀ value ∈ values, value.holdsObject = false := by
  induction values with
  | nil => simp [holdsObjectEach]
  | cons value rest ih => simp [holdsObjectEach, ih]

end Value

def Directive.holdsObject (directive : Directive) : Bool :=
  directive.arguments.any (·.value.holdsObject)

/-- Does an object occur in the default value or in the directives of the variable? -/
def VariableDefinition.holdsObject (declared : VariableDefinition) : Bool :=
  declared.default.any Value.holdsObject || declared.directives.any Directive.holdsObject

/-- Does an object occur in an operation before its selection set? -/
def Operation.headerHoldsObject (operation : Operation) : Bool :=
  operation.variableDefinitions.any VariableDefinition.holdsObject ||
    operation.directives.any Directive.holdsObject

def FragmentDefinition.headerHoldsObject (fragment : FragmentDefinition) : Bool :=
  fragment.directives.any Directive.holdsObject

namespace Parser

variable {before after : TokenStream}

section Values

variable {variability : Variability} {plain : Prop}

theorem apart_of_variableName {name : Name} (ran : variableName.run before = .ok (name, after)) :
    Apart plain before after := by
  rcases exists_of_run_bind ran with ⟨between, _, dollarRan, ran⟩
  exact ((next_of_expectPunctuator dollarRan).apart rfl).trans
    ((next_of_expectName ran).apart rfl)

theorem apart_of_variableValue {value : Value}
    (ran : (variableValue variability).run before = .ok (value, after)) :
    Apart plain before after := by
  cases variability with
  | mayVary =>
      rcases exists_of_run_bind ran with ⟨between, name, nameRan, ran⟩
      cases ran
      exact apart_of_variableName nameRan
  | constant =>
      -- A constant that is a variable is an error.
      rcases exists_of_run_bind ran with ⟨between, _, _, ran⟩
      rcases exists_of_run_bind ran with ⟨behind, name, _, ran⟩
      split at ran <;> cases ran

theorem takesBalanced_objectField {value : Parser Value} {plainValue : Value → Prop}
    (takes : TakesBalanced value plainValue) :
    TakesBalanced (objectField value) fun field => plainValue field.2 := by
  intro before after field ran
  rcases exists_of_run_bind ran with ⟨named, name, nameRan, ran⟩
  rcases exists_of_run_bind ran with ⟨marked, _, colonRan, ran⟩
  rcases exists_of_run_bind ran with ⟨between, found, valueRan, ran⟩
  cases ran
  exact (((next_of_expectName nameRan).apart rfl).trans
    ((next_of_expectPunctuator colonRan).apart rfl)).trans (takes valueRan)

theorem takesBalanced_valueAround {inner : Option (Parser Value)}
    (takes : ∀ value, inner = some value → TakesBalanced value (·.holdsObject = false)) :
    TakesBalanced (valueAround variability inner) (·.holdsObject = false) := by
  intro before after answer ran
  replace ran := run_after_peek ran
  split at ran
  · rcases exists_of_run_bind ran with ⟨behind, values, valuesRan, ran⟩
    cases ran
    cases inner with
    | none => cases valuesRan
    | some value =>
        rcases apart_of_between (takes value rfl) valuesRan with
          ⟨opened, closed, opens, within, closes⟩
        refine ((opens.apart rfl).trans (within.imp ?_)).trans (closes.apart rfl)
        intro free
        exact Value.holdsObjectEach_eq_false_iff.mp free
  · rcases exists_of_run_bind ran with ⟨behind, fields, fieldsRan, ran⟩
    cases ran
    cases inner with
    | none => cases fieldsRan
    | some value =>
        rcases apart_of_between (takesBalanced_objectField (takes value rfl)) fieldsRan with
          ⟨opened, closed, opens, within, closes⟩
        refine (Apart.braces opens within closes).imp ?_
        simp [Value.holdsObject]
  iterate 5
    · rename_i current
      rcases exists_of_run_bind ran with ⟨next, _, advanced, ran⟩
      cases ran
      exact (next_of_advance current advanced).apart rfl
  · exact apart_of_variableValue ran
  · rcases exists_of_run_bind ran with ⟨_, _, _, ran⟩
    cases ran

theorem takesBalanced_value (variability : Variability) (depth : Nat) :
    TakesBalanced (value variability depth) (·.holdsObject = false) := by
  induction depth with
  | zero => exact takesBalanced_valueAround (by simp)
  | succ depth ih =>
      apply takesBalanced_valueAround
      rintro _ ⟨⟩
      exact ih

theorem takesBalanced_argument (variability : Variability) (depth : Nat) :
    TakesBalanced (argument variability depth) (·.value.holdsObject = false) := by
  intro before after answer ran
  rcases exists_of_run_bind ran with ⟨named, name, nameRan, ran⟩
  rcases exists_of_run_bind ran with ⟨marked, _, colonRan, ran⟩
  rcases exists_of_run_bind ran with ⟨between, found, valueRan, ran⟩
  cases ran
  exact (((next_of_expectName nameRan).apart rfl).trans
    ((next_of_expectPunctuator colonRan).apart rfl)).trans
    (takesBalanced_value variability depth valueRan)

theorem takesBalanced_arguments (variability : Variability) (depth : Nat) :
    TakesBalanced (arguments variability depth) fun arguments =>
      ∀ argument ∈ arguments, argument.value.holdsObject = false := by
  intro before after answer ran
  exact apart_of_optionalBetween (takesBalanced_argument variability depth) rfl rfl ran

theorem takesBalanced_directive (variability : Variability) (depth : Nat) :
    TakesBalanced (directive variability depth) (·.holdsObject = false) := by
  intro before after answer ran
  rcases exists_of_run_bind ran with ⟨marked, _, atRan, ran⟩
  rcases exists_of_run_bind ran with ⟨named, name, nameRan, ran⟩
  rcases exists_of_run_bind ran with ⟨between, given, givenRan, ran⟩
  cases ran
  refine (((next_of_expectPunctuator atRan).apart rfl).trans
    ((next_of_expectName nameRan).apart rfl)).trans
    ((takesBalanced_arguments variability depth givenRan).imp ?_)
  simp [Directive.holdsObject]

theorem takesBalanced_directives (variability : Variability) (depth : Nat) :
    TakesBalanced (directives variability depth) fun directives =>
      ∀ directive ∈ directives, directive.holdsObject = false := by
  intro before after answer ran
  exact apart_of_whileAt (takesBalanced_directive variability depth) ran

theorem apart_of_orNonNull {type answer : TypeReference}
    (ran : (orNonNull type).run before = .ok (answer, after)) : Apart plain before after := by
  rcases exists_of_run_bind ran with ⟨between, taken, takenRan, ran⟩
  rcases of_skipPunctuator takenRan with ⟨rfl, bang⟩ | ⟨rfl, rfl⟩
  · cases ran
    exact bang.apart rfl
  · cases ran
    exact .refl

theorem takesBalanced_typeAround {inner : Parser TypeReference}
    (takes : TakesBalanced inner fun _ => True) :
    TakesBalanced (typeAround inner) fun _ => True := by
  intro before after answer ran
  rcases exists_of_run_bind ran with ⟨between, taken, takenRan, ran⟩
  rcases of_skipPunctuator takenRan with ⟨rfl, opens⟩ | ⟨rfl, rfl⟩
  · rcases exists_of_run_bind ran with ⟨behind, item, itemRan, ran⟩
    rcases exists_of_run_bind ran with ⟨closed, _, closeRan, ran⟩
    exact (((opens.apart rfl).trans (takes itemRan)).trans
      ((next_of_expectPunctuator closeRan).apart rfl)).trans (apart_of_orNonNull ran)
  · rcases exists_of_run_bind ran with ⟨behind, name, nameRan, ran⟩
    exact ((next_of_expectName nameRan).apart rfl).trans (apart_of_orNonNull ran)

theorem takesBalanced_typeReference (depth : Nat) :
    TakesBalanced (typeReference depth) fun _ => True := by
  induction depth with
  | zero =>
      apply takesBalanced_typeAround
      intro before after answer ran
      cases ran
  | succ depth ih => exact takesBalanced_typeAround ih

end Values

section Selections

variable {selections : Parser (List Selection)} {depth : Nat}

theorem takesBalanced_optionalSet (takes : TakesBalanced selections fun _ => False) :
    TakesBalanced (optionalSet selections) fun _ => False := by
  intro before after answer ran
  replace ran := run_after_atPunctuator ran
  split at ran
  · rcases exists_of_run_bind ran with ⟨behind, set, setRan, ran⟩
    cases ran
    exact takes setRan
  · cases ran
    exact .refl

theorem takesBalanced_field (takes : TakesBalanced selections fun _ => False) :
    TakesBalanced (field depth selections) fun _ => False := by
  intro before after answer ran
  rcases exists_of_run_bind ran with ⟨named, first, firstRan, ran⟩
  rcases exists_of_run_bind ran with ⟨marked, aliased, aliasedRan, ran⟩
  have firstApart : Apart False before named := (next_of_expectName firstRan).apart rfl
  have rest : ∀ {between name}, StateT.run (do
      let arguments ← arguments .mayVary depth
      let directives ← directives .mayVary depth
      let label := if aliased then some first else none
      return .node (.field label name arguments directives) (← optionalSet selections)) between =
        .ok (answer, after) → Apart False between after := by
    intro between name ran
    rcases exists_of_run_bind ran with ⟨given, arguments, argumentsRan, ran⟩
    rcases exists_of_run_bind ran with ⟨directed, directives, directivesRan, ran⟩
    rcases exists_of_run_bind ran with ⟨behind, set, setRan, ran⟩
    cases ran
    exact (((takesBalanced_arguments _ _ argumentsRan).imp False.elim).trans
      ((takesBalanced_directives _ _ directivesRan).imp False.elim)).trans
      (takesBalanced_optionalSet takes setRan)
  rcases of_skipPunctuator aliasedRan with ⟨rfl, colon⟩ | ⟨rfl, rfl⟩
  · rcases exists_of_run_bind ran with ⟨renamed, name, nameRan, ran⟩
    exact ((firstApart.trans (colon.apart rfl)).trans
      ((next_of_expectName nameRan).apart rfl)).trans (rest ran)
  · rcases exists_of_run_bind ran with ⟨renamed, name, nameRan, ran⟩
    cases nameRan
    exact firstApart.trans (rest ran)

theorem takesBalanced_afterEllipsis (takes : TakesBalanced selections fun _ => False) :
    TakesBalanced (afterEllipsis depth selections) fun _ => False := by
  intro before after answer ran
  rcases exists_of_run_bind ran with ⟨marked, conditional, conditionalRan, ran⟩
  rcases of_skipKeyword conditionalRan with ⟨rfl, word, _, on⟩ | ⟨rfl, rfl⟩
  · rcases exists_of_run_bind ran with ⟨named, condition, conditionRan, ran⟩
    rcases exists_of_run_bind ran with ⟨directed, directives, directivesRan, ran⟩
    rcases exists_of_run_bind ran with ⟨behind, set, setRan, ran⟩
    cases ran
    exact (((on.apart rfl).trans ((next_of_expectName conditionRan).apart rfl)).trans
      ((takesBalanced_directives _ _ directivesRan).imp False.elim)).trans (takes setRan)
  · rcases exists_of_run_bind ran with ⟨same, name, nameRan, ran⟩
    rcases run_peekName_eq_ok nameRan with ⟨rfl, current⟩
    cases name with
    | some word =>
        rcases exists_of_run_bind ran with ⟨named, _, advanced, ran⟩
        rcases exists_of_run_bind ran with ⟨directed, directives, directivesRan, ran⟩
        cases ran
        exact ((next_of_advance (current word rfl) advanced).apart rfl).trans
          ((takesBalanced_directives _ _ directivesRan).imp False.elim)
    | none =>
        rcases exists_of_run_bind ran with ⟨directed, directives, directivesRan, ran⟩
        rcases exists_of_run_bind ran with ⟨behind, set, setRan, ran⟩
        cases ran
        exact ((takesBalanced_directives _ _ directivesRan).imp False.elim).trans (takes setRan)

theorem takesBalanced_selection (takes : TakesBalanced selections fun _ => False) :
    TakesBalanced (selection depth selections) fun _ => False := by
  intro before after answer ran
  rcases exists_of_run_bind ran with ⟨marked, taken, takenRan, ran⟩
  rcases of_skipPunctuator takenRan with ⟨rfl, dots⟩ | ⟨rfl, rfl⟩
  · exact (dots.apart rfl).trans (takesBalanced_afterEllipsis takes ran)
  · exact takesBalanced_field takes ran

/-- A selection set opens with a brace, closes with one, and is balanced in between. -/
def InBraces (before after : TokenStream) : Prop :=
  ∃ opened closed, Next (.punctuator .braceOpen) before opened ∧ Apart False opened closed ∧
    Next (.punctuator .braceClose) closed after

theorem inBraces_of_selectionSet {answer : List Selection}
    (ran : (selectionSet depth).run before = .ok (answer, after)) : InBraces before after := by
  induction depth generalizing before after answer with
  | zero => cases ran
  | succ depth ih =>
      have takes : TakesBalanced (selectionSet depth) fun _ => False := by
        intro before after answer ran
        rcases ih ran with ⟨opened, closed, opens, within, closes⟩
        exact .braces opens within closes
      rcases apart_of_between (takesBalanced_selection takes) ran with
        ⟨opened, closed, opens, within, closes⟩
      exact ⟨opened, closed, opens, within.imp False.elim, closes⟩

end Selections

section Definitions

variable {depth : Nat} {description : Option StringLiteral}

theorem takesBalanced_variableDefinition (depth : Nat) :
    TakesBalanced (variableDefinition depth) (·.holdsObject = false) := by
  intro before after answer ran
  rcases exists_of_run_bind ran with ⟨described, description, descriptionRan, ran⟩
  rcases exists_of_run_bind ran with ⟨named, name, nameRan, ran⟩
  rcases exists_of_run_bind ran with ⟨marked, _, colonRan, ran⟩
  rcases exists_of_run_bind ran with ⟨typed, type, typeRan, ran⟩
  rcases exists_of_run_bind ran with ⟨equated, taken, takenRan, ran⟩
  have beginning {plain : Prop} : Apart plain before typed :=
    (((apart_of_literal? descriptionRan).trans (apart_of_variableName nameRan)).trans
      ((next_of_expectPunctuator colonRan).apart rfl)).trans
      ((takesBalanced_typeReference depth typeRan).imp fun _ => trivial)
  rcases of_skipPunctuator takenRan with ⟨rfl, equals⟩ | ⟨rfl, rfl⟩
  · rcases exists_of_run_bind ran with ⟨given, default, defaultRan, ran⟩
    rcases exists_of_run_bind ran with ⟨behind, directives, directivesRan, ran⟩
    cases ran
    rcases exists_of_run_map defaultRan with ⟨found, valueRan, rfl⟩
    refine ((beginning.trans (equals.apart rfl)).trans
      ((takesBalanced_value _ _ valueRan).imp ?_)).trans
      ((takesBalanced_directives _ _ directivesRan).imp ?_)
    · simp +contextual [VariableDefinition.holdsObject]
    · simp +contextual [VariableDefinition.holdsObject]
  · rcases exists_of_run_bind ran with ⟨given, default, defaultRan, ran⟩
    rcases exists_of_run_bind ran with ⟨behind, directives, directivesRan, ran⟩
    cases ran
    cases defaultRan
    refine beginning.trans ((takesBalanced_directives _ _ directivesRan).imp ?_)
    simp [VariableDefinition.holdsObject]

/-- A keyword, a name, a header, and a selection set in braces. -/
def IsWritten (keyword : String) (name : Name) (plain : Prop) (before after : TokenStream) :
    Prop :=
  ∃ word opened named headed, word.text = keyword ∧ Next (.name word) before opened ∧
    Next (.name name) opened named ∧ Apart plain named headed ∧ InBraces headed after

theorem exists_next_of_operationKind {kind : OperationKind}
    (ran : operationKind.run before = .ok (kind, after)) :
    ∃ word, operationKind? word.text = some kind ∧ Next (.name word) before after := by
  replace ran := run_after_peek ran
  rcases exists_of_run_bind ran with ⟨named, word, wordRan, ran⟩
  split at ran
  · rename_i known
    cases ran
    exact ⟨word, known, next_of_expectName wordRan⟩
  · cases ran

theorem text_of_operationKind?_eq_query {word : String}
    (known : operationKind? word = some .query) : word = "query" := by
  unfold operationKind? at known
  split at known
  · assumption
  · split at known
    · cases known
    · split at known <;> cases known

theorem isWritten_of_operation {operation : Operation} {name : Name}
    (ran : (Parser.operation depth description).run before = .ok (operation, after))
    (isQuery : operation.kind = .query) (named : operation.name = some name) :
    IsWritten "query" name (operation.headerHoldsObject = false) before after := by
  rcases exists_of_run_bind ran with ⟨opened, kind, kindRan, ran⟩
  rcases exists_of_run_bind ran with ⟨same, found, nameRan, ran⟩
  rcases exists_next_of_operationKind kindRan with ⟨word, known, next⟩
  rcases run_peekName_eq_ok nameRan with ⟨rfl, current⟩
  cases found with
  | none =>
      rcases exists_of_run_bind ran with ⟨_, _, _, ran⟩
      rcases exists_of_run_bind ran with ⟨_, _, _, ran⟩
      rcases exists_of_run_bind ran with ⟨_, _, _, ran⟩
      cases ran
      cases named
  | some found =>
      rcases exists_of_run_bind ran with ⟨afterName, _, advanced, ran⟩
      rcases exists_of_run_bind ran with ⟨declared, definitions, definitionsRan, ran⟩
      rcases exists_of_run_bind ran with ⟨headed, directives, directivesRan, ran⟩
      rcases exists_of_run_bind ran with ⟨behind, set, setRan, ran⟩
      cases ran
      cases named
      cases isQuery
      refine ⟨word, opened, afterName, headed, text_of_operationKind?_eq_query known, next,
        next_of_advance (current name rfl) advanced, ?_, inBraces_of_selectionSet setRan⟩
      refine ((apart_of_optionalBetween (takesBalanced_variableDefinition depth) rfl rfl
        definitionsRan).imp ?_).trans ((takesBalanced_directives _ _ directivesRan).imp ?_)
      · simp +contextual [Operation.headerHoldsObject]
      · simp +contextual [Operation.headerHoldsObject]

theorem isWritten_of_fragmentDefinition {fragment : FragmentDefinition}
    (ran : (fragmentDefinition depth description).run before = .ok (fragment, after)) :
    IsWritten "fragment" fragment.name (fragment.headerHoldsObject = false) before after := by
  rcases exists_of_run_bind ran with ⟨opened, _, wordRan, ran⟩
  rcases exists_of_run_bind ran with ⟨named, name, nameRan, ran⟩
  rcases exists_of_run_bind ran with ⟨conditional, condition, conditionRan, ran⟩
  rcases exists_of_run_bind ran with ⟨headed, directives, directivesRan, ran⟩
  rcases exists_of_run_bind ran with ⟨behind, set, setRan, ran⟩
  cases ran
  rcases next_of_expectKeyword wordRan with ⟨word, spelt, next⟩
  have nameNext : Next (.name name) opened named := by
    replace nameRan := run_after_peek nameRan
    split at nameRan
    · rcases exists_of_run_bind nameRan with ⟨_, _, _, nameRan⟩
      cases nameRan
    · exact next_of_expectName nameRan
  have conditionApart {plain : Prop} : Apart plain named conditional := by
    rcases exists_of_run_bind conditionRan with ⟨between, _, onRan, conditionRan⟩
    rcases next_of_expectKeyword onRan with ⟨on, _, onNext⟩
    exact (onNext.apart rfl).trans ((next_of_expectName conditionRan).apart rfl)
  refine ⟨word, opened, named, headed, spelt, next, nameNext, ?_,
    inBraces_of_selectionSet setRan⟩
  refine conditionApart.trans ((takesBalanced_directives _ _ directivesRan).imp ?_)
  simp [FragmentDefinition.headerHoldsObject]

def TakesDefinition (definition : Definition) (before after : TokenStream) : Prop :=
  (∀ operation name, definition = .operation operation → operation.kind = .query →
    operation.name = some name →
      IsWritten "query" name (operation.headerHoldsObject = false) before after) ∧
  ∀ fragment, definition = .fragment fragment →
    IsWritten "fragment" fragment.name (fragment.headerHoldsObject = false) before after

theorem takes_typeSystem : TakesDefinition .typeSystem before after :=
  ⟨by simp, by simp⟩

theorem takes_of_definitionAfter {definition : Definition}
    (ran : (definitionAfter description).run before = .ok (definition, after)) :
    TakesDefinition definition before after := by
  replace ran := run_after_peek ran
  split at ran
  · rcases exists_of_run_bind ran with ⟨behind, operation, operationRan, ran⟩
    rcases exists_of_run_bind operationRan with ⟨closed, set, _, operationRan⟩
    cases ran
    cases operationRan
    refine ⟨?_, by simp⟩
    rintro _ name ⟨⟩ _ ⟨⟩
  · split at ran
    · rcases exists_of_run_bind ran with ⟨_, _, _, ran⟩
      cases ran
      exact takes_typeSystem
    split at ran
    · rcases exists_of_run_bind ran with ⟨behind, operation, operationRan, ran⟩
      cases ran
      refine ⟨?_, by simp⟩
      rintro _ name ⟨⟩ isQuery named
      exact isWritten_of_operation operationRan isQuery named
    split at ran
    · rcases exists_of_run_bind ran with ⟨behind, fragment, fragmentRan, ran⟩
      cases ran
      refine ⟨by simp, ?_⟩
      rintro _ ⟨⟩
      exact isWritten_of_fragmentDefinition fragmentRan
    split at ran
    · cases ran
    split at ran
    · rcases exists_of_run_bind ran with ⟨_, _, _, ran⟩
      cases ran
      exact takes_typeSystem
    · rcases exists_of_run_bind ran with ⟨_, _, _, ran⟩
      cases ran
  · rcases exists_of_run_bind ran with ⟨_, _, _, ran⟩
    cases ran

/-- The definitions stand in the stream one after the other, each with its description before it. -/
inductive InOrder : TokenStream → List LocatedDefinition → Prop
  | nil {before : TokenStream} : InOrder before []
  | cons {before : TokenStream} {located : LocatedDefinition} {rest : List LocatedDefinition}
      (described : Apart True before located.start)
      (takes : TakesDefinition located.definition located.start located.behind)
      (later : InOrder located.behind rest) : InOrder before (located :: rest)

theorem of_definition {located : LocatedDefinition}
    (ran : Parser.definition.run before = .ok (located, after)) :
    Apart True before located.start ∧
      TakesDefinition located.definition located.start located.behind ∧ located.behind = after := by
  rcases exists_of_run_bind ran with ⟨described, description, descriptionRan, ran⟩
  rcases exists_of_run_bind ran with ⟨same, start, got, ran⟩
  rcases exists_of_run_bind ran with ⟨behind, definition, definitionRan, ran⟩
  rcases exists_of_run_bind ran with ⟨sameBehind, finish, gotBehind, ran⟩
  cases got
  cases gotBehind
  cases ran
  refine ⟨?_, takes_of_definitionAfter definitionRan, rfl⟩
  rcases exists_of_run_bind descriptionRan with ⟨read, literal, literalRan, descriptionRan⟩
  replace descriptionRan := run_after_atPunctuator descriptionRan
  split at descriptionRan
  · rcases exists_of_run_bind descriptionRan with ⟨_, _, threw, _⟩
    cases threw
  · cases descriptionRan
    exact apart_of_literal? literalRan

theorem inOrder_of_definitionsWithin {rounds : Nat} {located : List LocatedDefinition}
    (ran : (definitionsWithin rounds).run before = .ok (located, after)) :
    InOrder before located := by
  induction rounds generalizing before located with
  | zero =>
      rcases exists_of_run_bind ran with ⟨_, _, _, ran⟩
      cases ran
  | succ rounds ih =>
      rcases exists_of_run_bind ran with ⟨behind, first, firstRan, ran⟩
      rcases of_definition firstRan with ⟨described, takes, rfl⟩
      rcases exists_of_run_bind ran with ⟨same, found, current, ran⟩
      have stays : same = first.behind := by
        generalize first.behind = stream at current
        cases stream <;> cases current <;> rfl
      subst stays
      split at ran
      · cases ran
        exact .cons described takes .nil
      · rcases exists_of_run_bind ran with ⟨finish, others, othersRan, ran⟩
        cases ran
        exact .cons described takes (ih othersRan)

end Definitions

theorem eq_of_arrive_eq_ok (arrived : arrive before = .ok after) : before = after := by
  cases before <;> cases arrived <;> rfl

end Parser

/-- The definitions of a text stand in its stream of tokens one after the other. -/
theorem inOrder_of_parseLocated {text : String} {located : List LocatedDefinition}
    (parsed : parseLocated text = .ok located) :
    Parser.InOrder (.ofText text.toList) located := by
  rcases exists_of_bind_eq_ok parsed with ⟨start, arrived, parsed⟩
  rcases exists_of_bind_eq_ok parsed with ⟨⟨found, finish⟩, ran, done⟩
  cases done
  rw [Parser.eq_of_arrive_eq_ok arrived]
  rcases Parser.exists_of_run_bind ran with ⟨same, stream, got, ran⟩
  cases got
  exact Parser.inOrder_of_definitionsWithin ran

end QueryPrep.Graphql
