/-!
# Directive locations

The places where a directive may stand, in the two closed sets that the grammar tells apart: those
of executable documents and those of type systems.
-/

namespace GraphQLTree

/-- The places in executable documents where a directive may stand. -/
inductive ExecutableLocation where
  | query
  | mutation
  | subscription
  | field
  | fragmentDefinition
  | fragmentSpread
  | inlineFragment
  | variableDefinition
  deriving DecidableEq

namespace ExecutableLocation

/-- A location as it is written. -/
def text : ExecutableLocation → String
  | query => "QUERY"
  | mutation => "MUTATION"
  | subscription => "SUBSCRIPTION"
  | field => "FIELD"
  | fragmentDefinition => "FRAGMENT_DEFINITION"
  | fragmentSpread => "FRAGMENT_SPREAD"
  | inlineFragment => "INLINE_FRAGMENT"
  | variableDefinition => "VARIABLE_DEFINITION"

/-- A location's identifier. -/
def identifier : ExecutableLocation → String
  | query => "Query"
  | mutation => "Mutation"
  | subscription => "Subscription"
  | field => "Field"
  | fragmentDefinition => "FragmentDefinition"
  | fragmentSpread => "FragmentSpread"
  | inlineFragment => "InlineFragment"
  | variableDefinition => "VariableDefinition"

/-- Every location once. -/
def all : List ExecutableLocation :=
  [query, mutation, subscription, field, fragmentDefinition, fragmentSpread, inlineFragment,
    variableDefinition]

/-- The location that is written as a text. -/
def ofText? (text : String) : Option ExecutableLocation :=
  all.find? fun location => location.text == text

end ExecutableLocation

/-- The places in type systems where a directive may stand. -/
inductive TypeSystemLocation where
  | schema
  | scalar
  | object
  | fieldDefinition
  | argumentDefinition
  | interface
  | union
  | enum
  | enumValue
  | inputObject
  | inputFieldDefinition
  deriving DecidableEq

namespace TypeSystemLocation

/-- A location as it is written. -/
def text : TypeSystemLocation → String
  | schema => "SCHEMA"
  | scalar => "SCALAR"
  | object => "OBJECT"
  | fieldDefinition => "FIELD_DEFINITION"
  | argumentDefinition => "ARGUMENT_DEFINITION"
  | interface => "INTERFACE"
  | union => "UNION"
  | enum => "ENUM"
  | enumValue => "ENUM_VALUE"
  | inputObject => "INPUT_OBJECT"
  | inputFieldDefinition => "INPUT_FIELD_DEFINITION"

/-- A location's identifier. -/
def identifier : TypeSystemLocation → String
  | schema => "Schema"
  | scalar => "Scalar"
  | object => "Object"
  | fieldDefinition => "FieldDefinition"
  | argumentDefinition => "ArgumentDefinition"
  | interface => "Interface"
  | union => "Union"
  | enum => "Enum"
  | enumValue => "EnumValue"
  | inputObject => "InputObject"
  | inputFieldDefinition => "InputFieldDefinition"

/-- Every location once. -/
def all : List TypeSystemLocation :=
  [schema, scalar, object, fieldDefinition, argumentDefinition, interface, union, enum, enumValue,
    inputObject, inputFieldDefinition]

/-- The location that is written as a text. -/
def ofText? (text : String) : Option TypeSystemLocation :=
  all.find? fun location => location.text == text

end TypeSystemLocation

end GraphQLTree
