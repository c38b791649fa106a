import Mathlib.Data.List.Chain
import GraphQLTree.Proofs.Tree.Bare
import GraphQLTree.Token.Basic

/-!
# The grammar of the language

The grammar of GraphQL documents, of October 2021, as a relation between lists of tokens without
comments and syntax trees without comments. It is stated like the grammar of the specification: every
**nonterminal** has some **forms**, and a form is a list of **symbols** which tokens are derived from one
after the other (`Yields`, `YieldsNode`). Nothing is said about how a text is read.

* Where the specification has a parameter for constant values, nonterminals have a `Family`.
* A name may be restricted: a fragment isn't called `on`, and an enum value isn't called `true`, `false`
  or `null`.
* The names of directive locations are closed sets.
* An extension has to add something to what it extends.
* A definition that could have a body in braces but has none isn't followed by a brace. This is the
  only restriction on what stands behind what, and it is stated for documents (`YieldsDocument`).
-/

namespace GraphQLTree

namespace Language

/-! ### Forms -/

/-- The things that have a form in the grammar. -/
inductive Nonterminal where
  /-- What nodes of a kind are written as, unless another nonterminal is named below. -/
  | node (kind : Kind)
  /-- A selection set that is a query. -/
  | query
  /-- The interfaces that a type implements. -/
  | interfaces
  | unionMembers
  | argumentDefinitions
  | value (family : Family)
  | selection
  | type
  | nullableType
  | directiveLocation
  | definition
  deriving DecidableEq

/-- The sorts of tokens that nodes take their atoms from. -/
inductive Lexical where
  | int
  | float
  | string
  | boolean
  | enumValue
  | operationType
  | repeatable
  | executable
  | typeSystem
  deriving DecidableEq

/-- The atom that a token of a sort stands for. -/
inductive Lexical.Gives : Lexical → Token → Atom → Prop
  | int (text : String) : Gives .int (.int text) (.text text)
  | float (text : String) : Gives .float (.float text) (.text text)
  | string (value : String) : Gives .string (.string value) (.string value false)
  | blockString (value : String) : Gives .string (.blockString value) (.string value true)
  | trueValue : Gives .boolean (.name Keyword.trueValue.text) (.boolean true)
  | falseValue : Gives .boolean (.name Keyword.falseValue.text) (.boolean false)
  | enumValue (text : String)
    (h : ∀ k ∈ [Keyword.trueValue, .falseValue, .nullValue], text ≠ k.text) :
    Gives .enumValue (.name text) (.text text)
  | operationType (operation : OperationType) :
    Gives .operationType (.name operation.text) (.operation operation)
  | repeatable : Gives .repeatable (.name Keyword.repeatable.text) (.repeatable true)
  | executable (location : ExecutableLocation) :
    Gives .executable (.name location.text) (.executable location)
  | typeSystem (location : TypeSystemLocation) :
    Gives .typeSystem (.name location.text) (.typeSystem location)

/-- What a form is made of. Symbols that give a child say the slot that it stands in. -/
inductive Symbol where
  | punct (p : Punctuator)
  | keyword (k : Keyword)
  /-- A name other than some keywords. -/
  | name (slot : Slot) (except : List Keyword)
  /-- A token that the node takes its atom from. -/
  | lexical (sort : Lexical)
  | child (slot : Slot) (nonterminal : Nonterminal)
  | optional (symbols : List Symbol)
  /-- Any number of children. -/
  | many (slot : Slot) (nonterminal : Nonterminal)
  /-- One child or more. -/
  | some (slot : Slot) (nonterminal : Nonterminal)
  /-- One child or more with a delimiter between them, which may also stand before the first. -/
  | separated (slot : Slot) (nonterminal : Nonterminal) (delimiter : Punctuator)
  /-- More children with a delimiter before each. -/
  | delimited (slot : Slot) (nonterminal : Nonterminal) (delimiter : Punctuator)

/-- One way of writing nodes: their kind, their atom if no token gives it, and what they are made
of. -/
structure Form where
  kind : Kind
  atom : Atom
  symbols : List Symbol

/-- A name. -/
def anyName : Symbol := .name .name []

/-- A description in front of a definition. -/
def description : Symbol := .optional [.child .description (.node .stringValue)]

/-- The directives of a node. -/
def directives (family : Family) : Symbol := .many .directives (.node (.directive family))

/-- The arguments of a node. -/
def arguments (family : Family) : Symbol :=
  .optional [.child .arguments (.node (.argumentSet family))]

/-- The definitions of the arguments of a node. -/
def argumentsDefinition : Symbol := .optional [.child .arguments .argumentDefinitions]

/-- The selection set of a node. -/
def selectionSet : Symbol := .child .selectionSet (.node .selectionSet)

/-- The type condition of a fragment. -/
def typeCondition : List Symbol := [.keyword .onType, .child .typeCondition (.node .namedType)]

/-- A default value. -/
def defaultValue : Symbol :=
  .optional [.punct .equals, .child .defaultValue (.value .constant)]

/-- The interfaces of a type. -/
def implements : Symbol := .optional [.child .interfaces .interfaces]

/-- A body in braces. -/
def body (slot : Slot) (kind : Kind) : Symbol := .optional [.child slot (.node kind)]

/-- What stands in front of the keyword of a definition or an extension. -/
def heading : Role → List Symbol
  | .definition => [description]
  | .extension => [.keyword .extend]

/-- The symbols of nodes of a kind. Names, comments and documents have no symbols of their own, and what
sets of named types are made of depends on what they stand in. -/
def symbolsOf : Kind → List Symbol
  | .name => []
  | .blockComment => []
  | .inlineComment => []
  | .document => []
  | .namedTypeSet => []
  -- Operations and fragments
  | .operationDefinition =>
    [.lexical .operationType, .optional [anyName],
      .optional [.child .variableDefinitions (.node .variableDefinitionSet)],
      directives .general, selectionSet]
  | .fragmentDefinition =>
    [.keyword .fragment, .name .name [.onType]] ++ typeCondition ++
      [directives .general, selectionSet]
  | .variableDefinitionSet =>
    [.punct .parenOpen, .some .definitions (.node .variableDefinition), .punct .parenClose]
  | .variableDefinition =>
    [.child .variableUse (.node .variableUse), .punct .colon, .child .type .type, defaultValue,
      directives .constant]
  | .selectionSet => [.punct .braceOpen, .some .selections .selection, .punct .braceClose]
  | .field =>
    [.optional [.name .aliasName [], .punct .colon], anyName, arguments .general,
      directives .general, body .selectionSet .selectionSet]
  | .fragmentSpread => [.punct .ellipsis, .name .name [.onType], directives .general]
  | .inlineFragment =>
    [.punct .ellipsis, .optional typeCondition, directives .general, selectionSet]
  -- Values
  | .variableUse => [.punct .dollar, anyName]
  | .intValue => [.lexical .int]
  | .floatValue => [.lexical .float]
  | .stringValue => [.lexical .string]
  | .booleanValue => [.lexical .boolean]
  | .nullValue => [.keyword .nullValue]
  | .enumValue => [.lexical .enumValue]
  | .listValue family =>
    [.punct .bracketOpen, .many .values (.value family), .punct .bracketClose]
  | .objectValue family =>
    [.punct .braceOpen, .many .fields (.node (.objectField family)), .punct .braceClose]
  | .objectField family => [anyName, .punct .colon, .child .value (.value family)]
  | .argument family => [anyName, .punct .colon, .child .value (.value family)]
  | .argumentSet family =>
    [.punct .parenOpen, .some .arguments (.node (.argument family)), .punct .parenClose]
  | .directive family => [.punct .atSign, anyName, arguments family]
  -- Types
  | .namedType => [anyName]
  | .listType => [.punct .bracketOpen, .child .type .type, .punct .bracketClose]
  | .nonNullType => [.child .type .nullableType, .punct .exclamation]
  -- Type systems
  | .schema .definition =>
    heading .definition ++ [.keyword .schema, directives .constant,
      .child .operationTypes (.node .operationTypeDefinitionSet)]
  | .schema .extension =>
    heading .extension ++ [.keyword .schema, directives .constant,
      body .operationTypes .operationTypeDefinitionSet]
  | .operationTypeDefinition =>
    [.lexical .operationType, .punct .colon, .child .type (.node .namedType)]
  | .operationTypeDefinitionSet =>
    [.punct .braceOpen, .some .definitions (.node .operationTypeDefinition), .punct .braceClose]
  | .scalarType role => heading role ++ [.keyword .scalar, anyName, directives .constant]
  | .objectType role =>
    heading role ++ [.keyword .objectType, anyName, implements, directives .constant,
      body .fields .fieldDefinitionSet]
  | .interfaceType role =>
    heading role ++ [.keyword .interfaceType, anyName, implements, directives .constant,
      body .fields .fieldDefinitionSet]
  | .unionType role =>
    heading role ++ [.keyword .unionType, anyName, directives .constant,
      .optional [.child .types .unionMembers]]
  | .enumType role =>
    heading role ++ [.keyword .enumType, anyName, directives .constant,
      body .values .enumValueDefinitionSet]
  | .inputObjectType role =>
    heading role ++ [.keyword .inputType, anyName, directives .constant,
      body .fields .inputValueDefinitionSet]
  | .fieldDefinition =>
    [description, anyName, argumentsDefinition, .punct .colon, .child .type .type,
      directives .constant]
  | .fieldDefinitionSet =>
    [.punct .braceOpen, .some .definitions (.node .fieldDefinition), .punct .braceClose]
  | .inputValueDefinition =>
    [description, anyName, .punct .colon, .child .type .type, defaultValue, directives .constant]
  | .inputValueDefinitionSet =>
    [.punct .braceOpen, .some .definitions (.node .inputValueDefinition), .punct .braceClose]
  | .enumValueDefinition =>
    [description, .name .name [.trueValue, .falseValue, .nullValue], directives .constant]
  | .enumValueDefinitionSet =>
    [.punct .braceOpen, .some .definitions (.node .enumValueDefinition), .punct .braceClose]
  | .directiveDefinition =>
    [description, .keyword .directive, .punct .atSign, anyName, argumentsDefinition,
      .optional [.lexical .repeatable], .child .locations (.node .directiveLocationSet)]
  | .directiveLocationSet =>
    [.keyword .onType, .separated .locations .directiveLocation .pipe]
  | .executableLocation => [.lexical .executable]
  | .typeSystemLocation => [.lexical .typeSystem]

/-- The form of a kind. A directive may be repeated only if a token says so. -/
def Form.ofKind (kind : Kind) : Form :=
  ⟨kind, if kind = .directiveDefinition then .repeatable false else .none, symbolsOf kind⟩

/-- The form of a selection set that is a query. -/
def Form.query : Form := ⟨.operationDefinition, .operation .query, [selectionSet]⟩

/-- The kinds of values. -/
def values (family : Family) : List Kind :=
  [.intValue, .floatValue, .stringValue, .booleanValue, .nullValue, .enumValue, .listValue family,
    .objectValue family] ++
    match family with
    | .general => [.variableUse]
    | .constant => []

/-- The kinds of definitions. -/
def definitions : List Kind :=
  [.operationDefinition, .fragmentDefinition, .directiveDefinition] ++
    Role.all.flatMap fun role =>
      [.schema role, .scalarType role, .objectType role, .interfaceType role, .unionType role,
        .enumType role, .inputObjectType role]

/-- The forms of a nonterminal. -/
def forms : Nonterminal → List Form
  | .node kind => [.ofKind kind]
  | .query => [.query]
  | .interfaces =>
    [⟨.namedTypeSet, .none, [.keyword .implements,
      .separated .types (.node .namedType) .ampersand]⟩]
  | .unionMembers =>
    [⟨.namedTypeSet, .none, [.punct .equals, .separated .types (.node .namedType) .pipe]⟩]
  | .argumentDefinitions =>
    [⟨.inputValueDefinitionSet, .none, [.punct .parenOpen,
      .some .definitions (.node .inputValueDefinition), .punct .parenClose]⟩]
  | .value family => (values family).map .ofKind
  | .selection => [.ofKind .field, .ofKind .fragmentSpread, .ofKind .inlineFragment]
  | .type => [.ofKind .namedType, .ofKind .listType, .ofKind .nonNullType]
  | .nullableType => [.ofKind .namedType, .ofKind .listType]
  | .directiveLocation => [.ofKind .executableLocation, .ofKind .typeSystemLocation]
  | .definition => .query :: definitions.map .ofKind

/-! ### Derivations -/

/-- The kinds of extensions. -/
def isExtension : Kind → Bool
  | .schema role => role = .extension
  | .scalarType role => role = .extension
  | .objectType role => role = .extension
  | .interfaceType role => role = .extension
  | .unionType role => role = .extension
  | .enumType role => role = .extension
  | .inputObjectType role => role = .extension
  | _ => false

/-- What symbols give to a node: its children, and the atoms that tokens stand for. -/
structure Contents where
  children : List (Slot × Node)
  atoms : List Atom

/-- Whether there is something besides a name. -/
def Contents.AddsSomething (contents : Contents) : Prop :=
  ∃ entry ∈ contents.children, entry.1 ≠ .name

/-- The node of a form. Its children stand in the order of its kind's fields. -/
def Form.node (form : Form) (contents : Contents) : Node :=
  .mk form.kind (contents.atoms.headD form.atom) (Node.arrange form.kind contents.children)

section Symbols

variable (derives : Nonterminal → List Token → Node → Prop)

/-- The tokens that are derived from symbols one after the other, and what they give to the node, given
what is derived from nonterminals. -/
inductive Yields : List Symbol → List Token → Contents → Prop
  | nil : Yields [] [] ⟨[], []⟩
  | punct (p : Punctuator) {symbols : List Symbol} {tokens : List Token} {contents : Contents}
    (h : Yields symbols tokens contents) :
    Yields (.punct p :: symbols) (.punct p :: tokens) contents
  | keyword (k : Keyword) {symbols : List Symbol} {tokens : List Token} {contents : Contents}
    (h : Yields symbols tokens contents) :
    Yields (.keyword k :: symbols) (.name k.text :: tokens) contents
  | name (slot : Slot) {except : List Keyword} {text : String}
    (hname : ∀ k ∈ except, text ≠ k.text) {symbols : List Symbol} {tokens : List Token}
    {contents : Contents} (h : Yields symbols tokens contents) :
    Yields (.name slot except :: symbols) (.name text :: tokens)
      { contents with children := (slot, .ofName text) :: contents.children }
  | lexical {sort : Lexical} {token : Token} {atom : Atom} (hgives : sort.Gives token atom)
    {symbols : List Symbol} {tokens : List Token} {contents : Contents}
    (h : Yields symbols tokens contents) :
    Yields (.lexical sort :: symbols) (token :: tokens)
      { contents with atoms := atom :: contents.atoms }
  | child (slot : Slot) {nonterminal : Nonterminal} {inner : List Token} {node : Node}
    (hinner : derives nonterminal inner node) {symbols : List Symbol} {tokens : List Token}
    {contents : Contents} (h : Yields symbols tokens contents) :
    Yields (.child slot nonterminal :: symbols) (inner ++ tokens)
      { contents with children := (slot, node) :: contents.children }
  | absent (optional : List Symbol) {symbols : List Symbol} {tokens : List Token}
    {contents : Contents} (h : Yields symbols tokens contents) :
    Yields (.optional optional :: symbols) tokens contents
  | present {optional symbols : List Symbol} {tokens : List Token} {contents : Contents}
    (h : Yields (optional ++ symbols) tokens contents) :
    Yields (.optional optional :: symbols) tokens contents
  | none (slot : Slot) (nonterminal : Nonterminal) {symbols : List Symbol} {tokens : List Token}
    {contents : Contents} (h : Yields symbols tokens contents) :
    Yields (.many slot nonterminal :: symbols) tokens contents
  | more {slot : Slot} {nonterminal : Nonterminal} {symbols : List Symbol} {tokens : List Token}
    {contents : Contents}
    (h : Yields (.child slot nonterminal :: .many slot nonterminal :: symbols) tokens contents) :
    Yields (.many slot nonterminal :: symbols) tokens contents
  | some {slot : Slot} {nonterminal : Nonterminal} {symbols : List Symbol} {tokens : List Token}
    {contents : Contents}
    (h : Yields (.child slot nonterminal :: .many slot nonterminal :: symbols) tokens contents) :
    Yields (.some slot nonterminal :: symbols) tokens contents
  | separated {slot : Slot} {nonterminal : Nonterminal} {delimiter : Punctuator}
    {symbols : List Symbol} {tokens : List Token} {contents : Contents}
    (h : Yields (.child slot nonterminal :: .delimited slot nonterminal delimiter :: symbols) tokens
      contents) :
    Yields (.separated slot nonterminal delimiter :: symbols) tokens contents
  | leading {slot : Slot} {nonterminal : Nonterminal} {delimiter : Punctuator}
    {symbols : List Symbol} {tokens : List Token} {contents : Contents}
    (h : Yields (.punct delimiter :: .child slot nonterminal ::
      .delimited slot nonterminal delimiter :: symbols) tokens contents) :
    Yields (.separated slot nonterminal delimiter :: symbols) tokens contents
  | last (slot : Slot) (nonterminal : Nonterminal) (delimiter : Punctuator)
    {symbols : List Symbol} {tokens : List Token} {contents : Contents}
    (h : Yields symbols tokens contents) :
    Yields (.delimited slot nonterminal delimiter :: symbols) tokens contents
  | next {slot : Slot} {nonterminal : Nonterminal} {delimiter : Punctuator}
    {symbols : List Symbol} {tokens : List Token} {contents : Contents}
    (h : Yields (.punct delimiter :: .child slot nonterminal ::
      .delimited slot nonterminal delimiter :: symbols) tokens contents) :
    Yields (.delimited slot nonterminal delimiter :: symbols) tokens contents

end Symbols

/-- The tokens that are derived from a nonterminal, and their node. -/
inductive YieldsNode : Nonterminal → List Token → Node → Prop
  | form {nonterminal : Nonterminal} {form : Form} (hform : form ∈ forms nonterminal)
    {tokens : List Token} {contents : Contents}
    (h : Yields YieldsNode form.symbols tokens contents)
    (hadds : isExtension form.kind = true → contents.AddsSomething) :
    YieldsNode nonterminal tokens (form.node contents)

/-- Whether a definition could have a body in braces but has none: a type of an interface, an object, an
enum or an input object, one of its extensions, or an extension of a schema. -/
def LacksBody (node : Node) : Prop :=
  match node.kind with
  | .objectType _ => node.inSlot .fields = []
  | .interfaceType _ => node.inSlot .fields = []
  | .inputObjectType _ => node.inSlot .fields = []
  | .enumType _ => node.inSlot .values = []
  | .schema .extension => node.inSlot .operationTypes = []
  | _ => False

/-- A definition without a body isn't followed by a brace, which would be its body. -/
def Separate (a b : List Token × Node) : Prop :=
  LacksBody a.2 → b.1.head? ≠ some (.punct .braceOpen)

/-- The tokens that are derived from a document, which is one definition or more, and its node. -/
def YieldsDocument (tokens : List Token) (node : Node) : Prop :=
  ∃ definitions : List (List Token × Node),
    definitions ≠ [] ∧ (∀ d ∈ definitions, YieldsNode .definition d.1 d.2) ∧
    definitions.IsChain Separate ∧ tokens = definitions.flatMap Prod.fst ∧
    node = .mk .document (.size 0) (definitions.map fun d => (.definitions, d.2))

end Language

end GraphQLTree
