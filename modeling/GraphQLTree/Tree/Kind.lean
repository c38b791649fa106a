/-!
# Kinds of nodes

Every node of a syntax tree has a **kind**. Some kinds come in two **families**: where only
constants may stand, values, arguments and directives are of the constant family, which has no
variables. The kinds of the type system come in two **roles**, defining a thing or extending it.

A **construct** is what a parser can be said to be parsing: a kind, or one of the four unions of
kinds that the grammar chooses from by looking at the text.
-/

namespace GraphQLTree

/-- Whether variables may stand in a value. -/
inductive Family where
  | general
  | constant
  deriving DecidableEq

/-- Whether a type system node defines something or extends it. -/
inductive Role where
  | definition
  | extension
  deriving DecidableEq

/-- The kinds of nodes. -/
inductive Kind where
  | name
  | blockComment
  | inlineComment
  | document
  | operationDefinition
  | fragmentDefinition
  | variableDefinitionSet
  | variableDefinition
  | selectionSet
  | field
  | fragmentSpread
  | inlineFragment
  | variableUse
  | intValue
  | floatValue
  | stringValue
  | booleanValue
  | nullValue
  | enumValue
  | listValue (family : Family)
  | objectValue (family : Family)
  | objectField (family : Family)
  | argument (family : Family)
  | argumentSet (family : Family)
  | directive (family : Family)
  | namedType
  | listType
  | nonNullType
  | namedTypeSet
  | schema (role : Role)
  | operationTypeDefinition
  | operationTypeDefinitionSet
  | scalarType (role : Role)
  | objectType (role : Role)
  | interfaceType (role : Role)
  | unionType (role : Role)
  | enumType (role : Role)
  | inputObjectType (role : Role)
  | fieldDefinition
  | fieldDefinitionSet
  | inputValueDefinition
  | inputValueDefinitionSet
  | enumValueDefinition
  | enumValueDefinitionSet
  | directiveDefinition
  | directiveLocationSet
  | executableLocation
  | typeSystemLocation
  deriving DecidableEq

namespace Family

/-- The ending of an identifier that tells the constant family apart. -/
def suffix : Family → String
  | general => ""
  | constant => "Const"

/-- The word in front of a title that tells the constant family apart. -/
def adjective : Family → String
  | general => ""
  | constant => "Constant "

/-- Both families. -/
def all : List Family := [general, constant]

end Family

namespace Role

/-- The last word of an identifier or title. -/
def text : Role → String
  | definition => "Definition"
  | extension => "Extension"

/-- Both roles. -/
def all : List Role := [definition, extension]

end Role

namespace Kind

/-- A kind's identifier. -/
def identifier : Kind → String
  | name => "Name"
  | blockComment => "BlockComment"
  | inlineComment => "InlineComment"
  | document => "Document"
  | operationDefinition => "OperationDefinition"
  | fragmentDefinition => "FragmentDefinition"
  | variableDefinitionSet => "VariableDefinitionSet"
  | variableDefinition => "VariableDefinition"
  | selectionSet => "SelectionSet"
  | field => "Field"
  | fragmentSpread => "FragmentSpread"
  | inlineFragment => "InlineFragment"
  | variableUse => "Variable"
  | intValue => "IntValue"
  | floatValue => "FloatValue"
  | stringValue => "StringValue"
  | booleanValue => "BooleanValue"
  | nullValue => "NullValue"
  | enumValue => "EnumValue"
  | listValue family => "ListValue" ++ family.suffix
  | objectValue family => "ObjectValue" ++ family.suffix
  | objectField family => "ObjectField" ++ family.suffix
  | argument family => "Argument" ++ family.suffix
  | argumentSet family => "ArgumentSet" ++ family.suffix
  | directive family => "Directive" ++ family.suffix
  | namedType => "NamedType"
  | listType => "ListType"
  | nonNullType => "NonNullType"
  | namedTypeSet => "NamedTypeSet"
  | schema role => "Schema" ++ role.text
  | operationTypeDefinition => "OperationTypeDefinition"
  | operationTypeDefinitionSet => "OperationTypeDefinitionSet"
  | scalarType role => "ScalarType" ++ role.text
  | objectType role => "ObjectType" ++ role.text
  | interfaceType role => "InterfaceType" ++ role.text
  | unionType role => "UnionType" ++ role.text
  | enumType role => "EnumType" ++ role.text
  | inputObjectType role => "InputObjectType" ++ role.text
  | fieldDefinition => "FieldDefinition"
  | fieldDefinitionSet => "FieldDefinitionSet"
  | inputValueDefinition => "InputValueDefinition"
  | inputValueDefinitionSet => "InputValueDefinitionSet"
  | enumValueDefinition => "EnumValueDefinition"
  | enumValueDefinitionSet => "EnumValueDefinitionSet"
  | directiveDefinition => "DirectiveDefinition"
  | directiveLocationSet => "DirectiveLocationSet"
  | executableLocation => "ExecutableDirectiveLocation"
  | typeSystemLocation => "TypeSystemDirectiveLocation"

/-- What a message calls a kind. -/
def title : Kind → String
  | name => "Name"
  | blockComment => "Block Comment"
  | inlineComment => "Inline Comment"
  | document => "Document"
  | operationDefinition => "Operation Definition"
  | fragmentDefinition => "Fragment Definition"
  | variableDefinitionSet => "Variable Definitions"
  | variableDefinition => "Variable Definition"
  | selectionSet => "Selection Set"
  | field => "Field"
  | fragmentSpread => "Fragment Spread"
  | inlineFragment => "Inline Fragment"
  | variableUse => "Variable"
  | intValue => "Int"
  | floatValue => "Float"
  | stringValue => "String"
  | booleanValue => "Boolean"
  | nullValue => "Null"
  | enumValue => "Enum Value"
  | listValue family => family.adjective ++ "List"
  | objectValue family => family.adjective ++ "Object"
  | objectField family => family.adjective ++ "Object Field"
  | argument family => family.adjective ++ "Argument"
  | argumentSet family => family.adjective ++ "Arguments"
  | directive family => family.adjective ++ "Directive"
  | namedType => "Named Type"
  | listType => "List Type"
  | nonNullType => "Non-Null Type"
  | namedTypeSet => "Named Types"
  | schema role => "Schema " ++ role.text
  | operationTypeDefinition => "Operation Type Definition"
  | operationTypeDefinitionSet => "Operation Type Definitions"
  | scalarType role => "Scalar Type " ++ role.text
  | objectType role => "Object Type " ++ role.text
  | interfaceType role => "Interface Type " ++ role.text
  | unionType role => "Union Type " ++ role.text
  | enumType role => "Enum Type " ++ role.text
  | inputObjectType role => "Input Object Type " ++ role.text
  | fieldDefinition => "Field Definition"
  | fieldDefinitionSet => "Field Definitions"
  | inputValueDefinition => "Input Value Definition"
  | inputValueDefinitionSet => "Input Value Definitions"
  | enumValueDefinition => "Enum Value Definition"
  | enumValueDefinitionSet => "Enum Value Definitions"
  | directiveDefinition => "Directive Definition"
  | directiveLocationSet => "Directive Locations"
  | executableLocation => "Executable Directive Location"
  | typeSystemLocation => "Type System Directive Location"

/-- Every kind once. -/
def all : List Kind :=
  [name, blockComment, inlineComment, document, operationDefinition, fragmentDefinition,
    variableDefinitionSet, variableDefinition, selectionSet, field, fragmentSpread,
    inlineFragment, variableUse, intValue, floatValue, stringValue, booleanValue, nullValue,
    enumValue]
  ++ Family.all.flatMap (fun family => [listValue family, objectValue family, objectField family,
    argument family, argumentSet family, directive family])
  ++ [namedType, listType, nonNullType, namedTypeSet]
  ++ Role.all.flatMap (fun role => [schema role, scalarType role, objectType role,
    interfaceType role, unionType role, enumType role, inputObjectType role])
  ++ [operationTypeDefinition, operationTypeDefinitionSet, fieldDefinition, fieldDefinitionSet,
    inputValueDefinition, inputValueDefinitionSet, enumValueDefinition, enumValueDefinitionSet,
    directiveDefinition, directiveLocationSet, executableLocation, typeSystemLocation]

/-- The kind with an identifier. -/
def ofIdentifier? (identifier : String) : Option Kind :=
  all.find? fun kind => kind.identifier == identifier

/-- Whether a kind is one of the two kinds of comments. -/
def isComment : Kind → Bool
  | blockComment => true
  | inlineComment => true
  | _ => false

/-- The kind of the general family for a kind of the constant one, and any other kind itself. -/
def widen : Kind → Kind
  | listValue _ => listValue .general
  | objectValue _ => objectValue .general
  | objectField _ => objectField .general
  | argument _ => argument .general
  | argumentSet _ => argumentSet .general
  | directive _ => directive .general
  | kind => kind

end Kind

/-- What a parser can be said to be parsing. -/
inductive Construct where
  | kind (kind : Kind)
  | definition
  | selection
  | value
  | type
  deriving DecidableEq

namespace Construct

/-- A construct's identifier. -/
def identifier : Construct → String
  | kind k => k.identifier
  | definition => "Definition"
  | selection => "Selection"
  | value => "Value"
  | type => "Type"

/-- What a message calls a construct. -/
def title : Construct → String
  | kind k => k.title
  | definition => "Definition"
  | selection => "Selection"
  | value => "Value"
  | type => "Type"

/-- Every construct once. -/
def all : List Construct :=
  Kind.all.map kind ++ [definition, selection, value, type]

/-- The construct with an identifier. -/
def ofIdentifier? (identifier : String) : Option Construct :=
  all.find? fun construct => construct.identifier == identifier

end Construct

end GraphQLTree
