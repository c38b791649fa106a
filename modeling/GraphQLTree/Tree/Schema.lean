import GraphQLTree.Tree.Node

/-!
# The schema of nodes

The schema says for every kind which **fields** its nodes have: the slot, how many children stand
there, and their **content**, which is the set of kinds that fit. Some contents are unions of kinds
with a tag for each member. The fields' order is the order of a node's children, comments first,
except that a document's comments follow its definitions.
-/

namespace GraphQLTree

/-- The sets of kinds that a slot may ask for. -/
inductive Content where
  | kind (kind : Kind)
  | comment
  | value (family : Family)
  | selection
  | type
  | nullableType
  | directiveLocation
  | definition
  deriving DecidableEq

namespace Content

/-- The members of a union with their tags. -/
def members : Content → List (Kind × String)
  | kind _ => []
  | comment => [(.blockComment, "Block"), (.inlineComment, "Inline")]
  | value family =>
    (match family with
      | .general => [(.variableUse, "Variable")]
      | .constant => [])
    ++ [(.intValue, "Int"), (.floatValue, "Float"), (.stringValue, "String"),
      (.booleanValue, "Boolean"), (.nullValue, "Null"), (.enumValue, "Enum"),
      (.listValue family, "List"), (.objectValue family, "Object")]
  | selection =>
    [(.field, "Field"), (.fragmentSpread, "FragmentSpread"), (.inlineFragment, "InlineFragment")]
  | type => [(.namedType, "Named"), (.listType, "List"), (.nonNullType, "NonNull")]
  | nullableType => [(.namedType, "Named"), (.listType, "List")]
  | directiveLocation => [(.executableLocation, "Executable"), (.typeSystemLocation, "TypeSystem")]
  | definition =>
    [(.operationDefinition, "Operation"), (.fragmentDefinition, "Fragment"),
      (.schema .definition, "Schema"), (.schema .extension, "SchemaExtension"),
      (.scalarType .definition, "ScalarType"), (.scalarType .extension, "ScalarTypeExtension"),
      (.objectType .definition, "ObjectType"), (.objectType .extension, "ObjectTypeExtension"),
      (.interfaceType .definition, "InterfaceType"),
      (.interfaceType .extension, "InterfaceTypeExtension"),
      (.unionType .definition, "UnionType"), (.unionType .extension, "UnionTypeExtension"),
      (.enumType .definition, "EnumType"), (.enumType .extension, "EnumTypeExtension"),
      (.inputObjectType .definition, "InputObjectType"),
      (.inputObjectType .extension, "InputObjectTypeExtension"),
      (.directiveDefinition, "Directive")]

/-- The tag of a kind in a union. -/
def tag? (content : Content) (kind : Kind) : Option String :=
  content.members.lookup kind

/-- Whether nodes of a kind fit. -/
def accepts : Content → Kind → Bool
  | kind k, k' => k = k'
  | content, k' => (content.tag? k').isSome

end Content

/-- How many children stand in a field. -/
inductive Arity where
  | one
  | optional
  | list
  deriving DecidableEq

/-- A field of a kind of nodes. -/
structure Field where
  slot : Slot
  arity : Arity
  content : Content
  deriving DecidableEq

namespace Field

/-- A field with one child. -/
def one (slot : Slot) (content : Content) : Field := ⟨slot, .one, content⟩

/-- A field that may be left out. -/
def optional (slot : Slot) (content : Content) : Field := ⟨slot, .optional, content⟩

/-- A field with any number of children. -/
def list (slot : Slot) (content : Content) : Field := ⟨slot, .list, content⟩

/-- The comments of a node's own tokens. -/
def comments : Field := list .comments .comment

/-- The name of a node. -/
def name : Field := one .name (.kind .name)

/-- The description of a definition. -/
def description : Field := optional .description (.kind .stringValue)

/-- The directives of a node. -/
def directives (family : Family) : Field := list .directives (.kind (.directive family))

/-- The fields of a bracketed list: the comments of the brackets, and the items between them. -/
def bracketed (slot : Slot) (content : Content) : List Field :=
  [list .commentsOpeningBracket .comment, list slot content, list .commentsClosingBracket .comment]

/-- The comments of a type system node, and its description, which an extension does not have. -/
def heading : Role → List Field
  | .definition => [comments, description]
  | .extension => [comments]

end Field

namespace Kind

/-- The fields of a kind, in the order of a node's children. -/
def fields : Kind → List Field
  | name => []
  | blockComment => []
  | inlineComment => []
  | document => [.list .definitions .definition, .comments]
  | operationDefinition =>
    [.comments, .optional .name (.kind .name),
      .optional .variableDefinitions (.kind .variableDefinitionSet), .directives .general,
      .one .selectionSet (.kind .selectionSet)]
  | fragmentDefinition =>
    [.comments, .name, .one .typeCondition (.kind .namedType), .directives .general,
      .one .selectionSet (.kind .selectionSet)]
  | variableDefinitionSet => Field.bracketed .definitions (.kind .variableDefinition)
  | variableDefinition =>
    [.comments, .one .variableUse (.kind .variableUse), .one .type .type,
      .optional .defaultValue (.value .constant), .directives .constant]
  | selectionSet => Field.bracketed .selections .selection
  | field =>
    [.comments, .optional .aliasName (.kind .name), .name,
      .optional .arguments (.kind (.argumentSet .general)), .directives .general,
      .optional .selectionSet (.kind .selectionSet)]
  | fragmentSpread => [.comments, .name, .directives .general]
  | inlineFragment =>
    [.comments, .optional .typeCondition (.kind .namedType), .directives .general,
      .one .selectionSet (.kind .selectionSet)]
  | variableUse => [.comments, .name]
  | intValue => [.comments]
  | floatValue => [.comments]
  | stringValue => [.comments]
  | booleanValue => [.comments]
  | nullValue => [.comments]
  | enumValue => [.comments]
  | listValue family => Field.bracketed .values (.value family)
  | objectValue family => Field.bracketed .fields (.kind (.objectField family))
  | objectField family => [.comments, .name, .one .value (.value family)]
  | argument family => [.comments, .name, .one .value (.value family)]
  | argumentSet family => Field.bracketed .arguments (.kind (.argument family))
  | directive family =>
    [.comments, .name, .optional .arguments (.kind (.argumentSet family))]
  | namedType => [.comments, .name]
  | listType => [.comments, .one .type .type]
  | nonNullType => [.comments, .one .type .nullableType]
  | namedTypeSet => [.comments, .list .types (.kind .namedType)]
  | schema role =>
    Field.heading role ++ [.directives .constant,
      ⟨.operationTypes, (match role with
        | .definition => .one
        | .extension => .optional), .kind .operationTypeDefinitionSet⟩]
  | operationTypeDefinition => [.comments, .one .type (.kind .namedType)]
  | operationTypeDefinitionSet => Field.bracketed .definitions (.kind .operationTypeDefinition)
  | scalarType role => Field.heading role ++ [.name, .directives .constant]
  | objectType role =>
    Field.heading role ++ [.name, .optional .interfaces (.kind .namedTypeSet),
      .directives .constant, .optional .fields (.kind .fieldDefinitionSet)]
  | interfaceType role =>
    Field.heading role ++ [.name, .optional .interfaces (.kind .namedTypeSet),
      .directives .constant, .optional .fields (.kind .fieldDefinitionSet)]
  | unionType role =>
    Field.heading role ++ [.name, .directives .constant,
      .optional .types (.kind .namedTypeSet)]
  | enumType role =>
    Field.heading role ++ [.name, .directives .constant,
      .optional .values (.kind .enumValueDefinitionSet)]
  | inputObjectType role =>
    Field.heading role ++ [.name, .directives .constant,
      .optional .fields (.kind .inputValueDefinitionSet)]
  | fieldDefinition =>
    [.comments, .description, .name, .optional .arguments (.kind .inputValueDefinitionSet),
      .one .type .type, .directives .constant]
  | fieldDefinitionSet => Field.bracketed .definitions (.kind .fieldDefinition)
  | inputValueDefinition =>
    [.comments, .description, .name, .one .type .type,
      .optional .defaultValue (.value .constant), .directives .constant]
  | inputValueDefinitionSet => Field.bracketed .definitions (.kind .inputValueDefinition)
  | enumValueDefinition => [.comments, .description, .name, .directives .constant]
  | enumValueDefinitionSet => Field.bracketed .definitions (.kind .enumValueDefinition)
  | directiveDefinition =>
    [.comments, .description, .name, .optional .arguments (.kind .inputValueDefinitionSet),
      .one .locations (.kind .directiveLocationSet)]
  | directiveLocationSet => [.comments, .list .locations .directiveLocation]
  | executableLocation => [.comments]
  | typeSystemLocation => [.comments]

/-- The field that a kind has for a slot. -/
def fieldAt? (kind : Kind) (slot : Slot) : Option Field :=
  kind.fields.find? fun field => field.slot = slot

/-- Whether the children in a slot are counted, so that a path to one of them has an index. -/
def isListSlot (kind : Kind) (slot : Slot) : Bool :=
  (kind.fieldAt? slot).any fun field => field.arity = .list

/-- The segments that lead from a node of a kind to its next child in a slot, when the children
before it stand in the `earlier` slots. -/
def stepTo (kind : Kind) (earlier : List Slot) (slot : Slot) : Path :=
  if kind.isListSlot slot then [.slot slot, .index (earlier.count slot)] else [.slot slot]

end Kind

namespace Node

/-- Children put into the order of a kind's fields; those of one slot keep their order. -/
def arrange (kind : Kind) (entries : List (Slot × Node)) : List (Slot × Node) :=
  kind.fields.flatMap fun field => entries.filter fun entry => entry.1 = field.slot

/-- The descendant that a path leads to. -/
def at? (node : Node) : Path → Option Node
  | [] => some node
  | .index _ :: _ => none
  | .slot slot :: path =>
    if node.kind.isListSlot slot then
      match path with
      | .index n :: path => do at? (← (node.inSlot slot)[n]?) path
      | _ => none
    else do at? (← node.inSlot? slot) path

end Node

end GraphQLTree
