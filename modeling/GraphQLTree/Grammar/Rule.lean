import GraphQLTree.Grammar.Goal

/-!
# Rules

The **rule** of a production says how its nodes are written, as a list of **items** that a reader
and a printer go through in the same order. An item is a **part**, such as a punctuator, a name or
a child, or a group of parts that is there or not. The reader decides about a group by the next
tokens, the printer by the node.

Most tokens of a rule are the node's **own**: their comments are the node's comments. Brackets keep
their comments to themselves.
-/

namespace GraphQLTree

/-- The sorts of tokens that a reader looks for. -/
inductive Terminal where
  | punct (p : Punctuator)
  | keyword (keyword : Keyword)
  | name
  | string
  deriving DecidableEq

/-- Whether a token is of a sort. -/
def Terminal.accepts : Terminal → Token → Bool
  | punct p, token => token = .punct p
  | keyword k, token => token = .name k.text
  | name, .name _ => true
  | string, .string _ => true
  | string, .blockString _ => true
  | _, _ => false

/-- The names that can't stand in a place. -/
inductive NameRule where
  | any
  /-- A fragment isn't called `on`. -/
  | fragment
  /-- An enum value isn't called `true`, `false` or `null`. -/
  | enumValue
  deriving DecidableEq

/-- What is asked for instead of a name that can't stand in a place. -/
def NameRule.refuses? (rule : NameRule) (text : String) : Option Expectation :=
  match rule, Keyword.ofName? text with
  | fragment, some .onType => some .fragmentName
  | enumValue, some .trueValue => some .enumValueName
  | enumValue, some .falseValue => some .enumValueName
  | enumValue, some .nullValue => some .enumValueName
  | _, _ => none

/-- The tokens that give a node its atom. -/
inductive Literal where
  | int
  | float
  | string
  | boolean
  | enumValue
  | operation
  | repeatable
  | executable
  | typeSystem
  deriving DecidableEq

namespace Literal

/-- The atom that a token gives. -/
def read? : Literal → Token → Option Atom
  | int, .int text => some (.text text)
  | float, .float text => some (.text text)
  | string, .string value => some (.string value false)
  | string, .blockString value => some (.string value true)
  | boolean, .name text =>
    match Keyword.ofName? text with
    | some .trueValue => some (.boolean true)
    | some .falseValue => some (.boolean false)
    | _ => none
  | enumValue, .name text =>
    if (NameRule.enumValue.refuses? text).isSome then none else some (.text text)
  | operation, .name text => (OperationType.ofText? text).map .operation
  | repeatable, .name text =>
    if Keyword.ofName? text = some .repeatable then some (.repeatable true) else none
  | executable, .name text => (ExecutableLocation.ofText? text).map .executable
  | typeSystem, .name text => (TypeSystemLocation.ofText? text).map .typeSystem
  | _, _ => none

/-- What a message asks for where the token is missing. -/
def expectation : Literal → Option Expectation
  | operation => some .operationType
  | repeatable => some (.keyword .repeatable)
  | executable => some .directiveLocation
  | typeSystem => some .directiveLocation
  | _ => none

end Literal

/-- The space between two parts. -/
inductive Gap where
  /-- A space in pretty text only. -/
  | soft
  /-- A space that keeps two names apart. -/
  | hard
  deriving DecidableEq

/-- The parts of rules. -/
inductive Part where
  | gap (gap : Gap)
  /-- An own punctuator. -/
  | punct (p : Punctuator)
  /-- A punctuator that keeps its comments, in a slot. -/
  | bracket (p : Punctuator) (slot : Slot)
  /-- An own keyword. -/
  | keyword (keyword : Keyword)
  /-- An own name that becomes a child. -/
  | name (slot : Slot) (rule : NameRule)
  /-- An own name that becomes a child and has a space in front. -/
  | spacedName (slot : Slot)
  /-- An own token that gives the node its atom. -/
  | literal (literal : Literal)
  | child (slot : Slot) (goal : Goal)
  /-- A child that has to start with a punctuator. -/
  | opened (p : Punctuator) (slot : Slot) (goal : Goal)
  /-- Children up to a closing punctuator, separated by commas. -/
  | listed (slot : Slot) (goal : Goal) (close : Punctuator) (allowEmpty : Bool)
  /-- Children that each start with a punctuator. -/
  | repeated (slot : Slot) (goal : Goal) (start : Punctuator)
  /-- Children with an own punctuator between them, which may also stand before the first. -/
  | separated (slot : Slot) (goal : Goal) (delimiter : Punctuator)
  /-- Children that are only ever written, separated by commas. -/
  | juxtaposed (slot : Slot)
  /-- Asks for a child besides comments and the name, or for the punctuator that could start
  one. -/
  | demand (p : Punctuator)
  deriving DecidableEq

/-- The next one or two tokens by which a reader decides about a group. -/
structure Guard where
  first : Terminal
  second : Option Terminal
  deriving DecidableEq

namespace Guard

/-- A guard of one token. -/
def next (terminal : Terminal) : Guard := ⟨terminal, none⟩

/-- A guard of one punctuator. -/
def punct (p : Punctuator) : Guard := next (.punct p)

/-- A guard of one keyword. -/
def keyword (k : Keyword) : Guard := next (.keyword k)

end Guard

/-- What a printer decides about a group by. -/
inductive Presence where
  /-- There are children in a slot. -/
  | filled (slot : Slot)
  /-- The atom says that the node is repeatable. -/
  | repeatable
  deriving DecidableEq

/-- The items of rules. -/
inductive Item where
  | part (part : Part)
  | group (guard : Guard) (presence : Presence) (parts : List Part)
  deriving DecidableEq

namespace Item

/-- A space in pretty text only. -/
def soft : Item := part (.gap .soft)

/-- A space that keeps two names apart. -/
def hard : Item := part (.gap .hard)

/-- An own punctuator. -/
def punct (p : Punctuator) : Item := part (.punct p)

/-- An own keyword. -/
def keyword (k : Keyword) : Item := part (.keyword k)

/-- The name of a node. -/
def name (rule : NameRule) : Item := part (.name .name rule)

/-- A token that gives the atom. -/
def literal (l : Literal) : Item := part (.literal l)

/-- A child. -/
def child (slot : Slot) (goal : Goal) : Item := part (.child slot goal)

/-- A child that is there if the next token is of a sort, with spaces before it. -/
def optional (guard : Guard) (slot : Slot) (gaps : List Gap) (goal : Goal) : Item :=
  group guard (.filled slot) (gaps.map .gap ++ [.child slot goal])

/-- The directives of a node. -/
def directives (family : Family) : Item :=
  part (.repeated .directives (.kind (.directive family)) .atSign)

/-- A selection set that has to be there. -/
def selectionSet : List Item := [soft, child .selectionSet (.kind .selectionSet)]

/-- A name and a value with a colon between them. -/
def nameAndValue (family : Family) : List Item :=
  [name .any, punct .colon, soft, child .value (.value family)]

/-- A colon and a type. -/
def typed : List Item := [punct .colon, soft, child .type .type]

/-- The default value of a variable or an input value. -/
def defaultValue : Item :=
  group (.punct .equals) (.filled .defaultValue)
    [.gap .soft, .punct .equals, .gap .soft, .child .defaultValue (.value .constant)]

/-- The interfaces of an object or interface type. -/
def interfaces : Item :=
  optional (.keyword .implements) .interfaces [.hard] (.production .interfaces)

/-- A bracketed list. -/
def bracketed (opener close : Punctuator) (slot : Slot) (goal : Goal) (allowEmpty : Bool) :
    List Item :=
  [part (.bracket opener .commentsOpeningBracket), part (.listed slot goal close allowEmpty),
    part (.bracket close .commentsClosingBracket)]

/-- A list in braces that isn't empty. -/
def braced (slot : Slot) (goal : Goal) : List Item :=
  bracketed .braceOpen .braceClose slot goal false

/-- A list in parentheses that isn't empty. -/
def parenthesized (slot : Slot) (goal : Goal) : List Item :=
  bracketed .parenOpen .parenClose slot goal false

end Item

/-- How the nodes of a production are written. -/
structure Rule where
  /-- Whether a description may stand in front, on which the node's comments don't bear. -/
  described : Bool
  /-- The atom of a node whose tokens give none. -/
  start : Atom
  items : List Item
  deriving DecidableEq

namespace Rule

/-- A rule without description. -/
def plain (items : List Item) : Rule := ⟨false, .none, items⟩

/-- A rule of a type system node: a definition may have a description, an extension starts with
`extend` and has to add something, which the last punctuator could start. -/
def typeSystem (role : Role) (keyword : Keyword) (items : List Item) (adds : Punctuator) : Rule :=
  match role with
  | .definition => ⟨true, .none, .keyword keyword :: items⟩
  | .extension =>
    ⟨false, .none,
      [.keyword .extend, .hard, .keyword keyword] ++ items ++ [.part (.demand adds)]⟩

/-- The braced set that ends a type system node. -/
def body (slot : Slot) (goal : Goal) : Item :=
  .optional (.punct .braceOpen) slot [.soft] goal

/-- The rule that nodes of a kind are written by. Names, comments and documents have none: the
first two are single tokens, and documents have definitions up to the end of the text. -/
def ofKind : Kind → Rule
  | .name => plain []
  | .blockComment => plain []
  | .inlineComment => plain []
  | .document => plain []
  | .operationDefinition =>
    plain ([.literal .operation,
      .group (.next .name) (.filled .name) [.spacedName .name],
      .optional (.punct .parenOpen) .variableDefinitions [] (.kind .variableDefinitionSet),
      .directives .general] ++ Item.selectionSet)
  | .fragmentDefinition =>
    plain ([.keyword .fragment, .hard, .name .fragment, .hard, .keyword .onType, .hard,
      .child .typeCondition (.kind .namedType), .directives .general] ++ Item.selectionSet)
  | .variableDefinitionSet => plain (Item.parenthesized .definitions (.kind .variableDefinition))
  | .variableDefinition =>
    plain ([.child .variableUse (.kind .variableUse)] ++ Item.typed ++
      [.defaultValue, .directives .constant])
  | .selectionSet => plain (Item.braced .selections .selection)
  | .field =>
    plain [.group ⟨.name, some (.punct .colon)⟩ (.filled .aliasName)
        [.name .aliasName .any, .punct .colon, .gap .soft],
      .name .any,
      .optional (.punct .parenOpen) .arguments [] (.kind (.argumentSet .general)),
      .directives .general,
      body .selectionSet (.kind .selectionSet)]
  | .fragmentSpread => plain [.punct .ellipsis, .name .fragment, .directives .general]
  | .inlineFragment =>
    plain ([.punct .ellipsis,
      .group (.keyword .onType) (.filled .typeCondition)
        [.gap .soft, .keyword .onType, .gap .hard, .child .typeCondition (.kind .namedType)],
      .directives .general] ++ Item.selectionSet)
  | .variableUse => plain [.punct .dollar, .name .any]
  | .intValue => plain [.literal .int]
  | .floatValue => plain [.literal .float]
  | .stringValue => plain [.literal .string]
  | .booleanValue => plain [.literal .boolean]
  | .nullValue => plain [.keyword .nullValue]
  | .enumValue => plain [.literal .enumValue]
  | .listValue family =>
    plain (Item.bracketed .bracketOpen .bracketClose .values (.value family) true)
  | .objectValue family =>
    plain (Item.bracketed .braceOpen .braceClose .fields (.kind (.objectField family)) true)
  | .objectField family => plain (Item.nameAndValue family)
  | .argument family => plain (Item.nameAndValue family)
  | .argumentSet family => plain (Item.parenthesized .arguments (.kind (.argument family)))
  | .directive family =>
    plain [.punct .atSign, .name .any,
      .optional (.punct .parenOpen) .arguments [] (.kind (.argumentSet family))]
  | .namedType => plain [.name .any]
  | .listType => plain [.punct .bracketOpen, .child .type .type, .punct .bracketClose]
  | .nonNullType =>
    plain [.child .type .type, .part (.bracket .exclamation .comments)]
  | .namedTypeSet => plain [.part (.juxtaposed .types)]
  | .schema .definition =>
    ⟨true, .none, [.keyword .schema, .directives .constant, .soft,
      .part (.opened .braceOpen .operationTypes (.kind .operationTypeDefinitionSet))]⟩
  | .schema .extension =>
    typeSystem .extension .schema
      [.directives .constant, body .operationTypes (.kind .operationTypeDefinitionSet)] .braceOpen
  | .operationTypeDefinition =>
    plain [.literal .operation, .punct .colon, .soft, .child .type (.kind .namedType)]
  | .operationTypeDefinitionSet =>
    plain (Item.braced .definitions (.kind .operationTypeDefinition))
  | .scalarType role =>
    typeSystem role .scalar [.hard, .name .any, .directives .constant] .atSign
  | .objectType role =>
    typeSystem role .objectType [.hard, .name .any, .interfaces, .directives .constant,
      body .fields (.kind .fieldDefinitionSet)] .braceOpen
  | .interfaceType role =>
    typeSystem role .interfaceType [.hard, .name .any, .interfaces, .directives .constant,
      body .fields (.kind .fieldDefinitionSet)] .braceOpen
  | .unionType role =>
    typeSystem role .unionType [.hard, .name .any, .directives .constant,
      .optional (.punct .equals) .types [.soft] (.production .unionMembers)] .equals
  | .enumType role =>
    typeSystem role .enumType [.hard, .name .any, .directives .constant,
      body .values (.kind .enumValueDefinitionSet)] .braceOpen
  | .inputObjectType role =>
    typeSystem role .inputType [.hard, .name .any, .directives .constant,
      body .fields (.kind .inputValueDefinitionSet)] .braceOpen
  | .fieldDefinition =>
    ⟨true, .none, [.name .any,
      .optional (.punct .parenOpen) .arguments [] (.production .argumentDefinitions)]
      ++ Item.typed ++ [.directives .constant]⟩
  | .fieldDefinitionSet => plain (Item.braced .definitions (.kind .fieldDefinition))
  | .inputValueDefinition =>
    ⟨true, .none, [.name .any] ++ Item.typed ++ [.defaultValue, .directives .constant]⟩
  | .inputValueDefinitionSet => plain (Item.braced .definitions (.kind .inputValueDefinition))
  | .enumValueDefinition => ⟨true, .none, [.name .enumValue, .directives .constant]⟩
  | .enumValueDefinitionSet => plain (Item.braced .definitions (.kind .enumValueDefinition))
  | .directiveDefinition =>
    ⟨true, .repeatable false, [.keyword .directive, .hard, .punct .atSign, .name .any,
      .optional (.punct .parenOpen) .arguments [] (.production .argumentDefinitions),
      .group (.keyword .repeatable) .repeatable [.gap .hard, .literal .repeatable],
      .hard, .child .locations (.kind .directiveLocationSet)]⟩
  | .directiveLocationSet =>
    plain [.keyword .onType, .hard, .part (.separated .locations .directiveLocation .pipe)]
  | .executableLocation => plain [.literal .executable]
  | .typeSystemLocation => plain [.literal .typeSystem]

end Rule

/-- How the nodes of a production are written. -/
def Production.rule : Production → Rule
  | of kind => Rule.ofKind kind
  | shorthand => ⟨false, .operation .query, [.child .selectionSet (.kind .selectionSet)]⟩
  | interfaces =>
    .plain [.keyword .implements, .hard, .part (.separated .types (.kind .namedType) .ampersand)]
  | unionMembers =>
    .plain [.punct .equals, .soft, .part (.separated .types (.kind .namedType) .pipe)]
  | argumentDefinitions =>
    .plain (Item.parenthesized .definitions (.kind .inputValueDefinition))

end GraphQLTree
