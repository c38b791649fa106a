import GraphQLTree.Diagnostic.Basic
import GraphQLTree.Tree.Schema

/-!
# Productions and goals

A **production** is one way of writing nodes of a kind. Most kinds have a single one; an operation
may be a bare selection set, named types stand behind `implements` or behind an equals sign, and
input values stand in parentheses or in braces. A **goal** is what a reader can be asked for: one
production, or a union of them. `Goal.choose` picks the production for a goal by the first two
tokens of the text, or says why there is none.
-/

namespace GraphQLTree

/-- The ways of writing nodes. -/
inductive Production where
  /-- The way that nodes of a kind are written unless another one is named below. -/
  | of (kind : Kind)
  /-- A query that is its selection set alone. -/
  | shorthand
  /-- Named types behind `implements`. -/
  | interfaces
  /-- Named types behind an equals sign. -/
  | unionMembers
  /-- Input values in parentheses. -/
  | argumentDefinitions
  deriving DecidableEq

/-- The kind of the nodes that a production writes. -/
def Production.kind : Production → Kind
  | of kind => kind
  | shorthand => .operationDefinition
  | interfaces => .namedTypeSet
  | unionMembers => .namedTypeSet
  | argumentDefinitions => .inputValueDefinitionSet

/-- What a reader can be asked for. -/
inductive Goal where
  | production (production : Production)
  | operation
  | inputValues
  | value (family : Family)
  | selection
  | type
  | directiveLocation
  | definition
  deriving DecidableEq

/-- The goal of reading a kind's own production. -/
def Goal.kind (kind : Kind) : Goal :=
  .production (.of kind)

/-- A production, or a reason why none fits: what was being read and what it needed, at the first
or the second token. -/
inductive Choice where
  | take (production : Production)
  | refuse (skip : Nat) (construct : Construct) (expected : Option Expectation)
  deriving DecidableEq

namespace Choice

/-- Chooses a kind's own production. -/
def kind (kind : Kind) : Choice :=
  take (.of kind)

/-- The value that starts with a token. -/
def value (family : Family) : Option Token → Choice
  | some (.punct .dollar) =>
    match family with
    | .general => kind .variableUse
    | .constant => refuse 0 .value (some .constantValue)
  | some (.punct .bracketOpen) => kind (.listValue family)
  | some (.punct .braceOpen) => kind (.objectValue family)
  | some (.int _) => kind .intValue
  | some (.float _) => kind .floatValue
  | some (.string _) => kind .stringValue
  | some (.blockString _) => kind .stringValue
  | some (.name text) =>
    match Keyword.ofName? text with
    | some .trueValue => kind .booleanValue
    | some .falseValue => kind .booleanValue
    | some .nullValue => kind .nullValue
    | _ => kind .enumValue
  | _ => refuse 0 .value none

/-- The selection that starts with two tokens. What follows an ellipsis tells a spread from an
inline fragment. -/
def selection : Option Token → Option Token → Choice
  | some (.name _), _ => kind .field
  | some (.punct .ellipsis), some (.name text) =>
    if Keyword.ofName? text = some .onType then kind .inlineFragment else kind .fragmentSpread
  | some (.punct .ellipsis), some (.punct .braceOpen) => kind .inlineFragment
  | some (.punct .ellipsis), some (.punct .atSign) => kind .inlineFragment
  | some (.punct .ellipsis), _ => refuse 1 .selection none
  | _, _ => refuse 0 .selection none

/-- The type that starts with a token. -/
def type : Option Token → Choice
  | some (.name _) => kind .namedType
  | some (.punct .bracketOpen) => kind .listType
  | _ => refuse 0 .type none

/-- The directive location that a token names. -/
def directiveLocation : Option Token → Choice
  | some (.name text) =>
    if (ExecutableLocation.ofText? text).isSome then kind .executableLocation
    else if (TypeSystemLocation.ofText? text).isSome then kind .typeSystemLocation
    else refuse 0 (.kind .directiveLocationSet) (some .directiveLocation)
  | _ => refuse 0 (.kind .directiveLocationSet) (some .directiveLocation)

/-- The kind of the type system node that a keyword introduces. -/
def typeSystemKind? (role : Role) : Keyword → Option Kind
  | .schema => some (.schema role)
  | .scalar => some (.scalarType role)
  | .objectType => some (.objectType role)
  | .interfaceType => some (.interfaceType role)
  | .unionType => some (.unionType role)
  | .enumType => some (.enumType role)
  | .inputType => some (.inputObjectType role)
  | .directive =>
    match role with
    | .definition => some .directiveDefinition
    | .extension => none
  | _ => none

/-- The type system node of a role that a token introduces. -/
def typeSystem? (role : Role) (token : Option Token) : Option Choice := do
  let keyword ← (← token).keyword?
  return kind (← typeSystemKind? role keyword)

/-- The definition that starts with two tokens. A description or `extend` leaves it to the second
token to say which. -/
def definition (first second : Option Token) : Choice :=
  match first with
  | some (.punct .braceOpen) => take .shorthand
  | some (.string _) => described
  | some (.blockString _) => described
  | some (.name text) =>
    match Keyword.ofName? text with
    | some .query => kind .operationDefinition
    | some .mutation => kind .operationDefinition
    | some .subscription => kind .operationDefinition
    | some .fragment => kind .fragmentDefinition
    | some .extend =>
      (typeSystem? .extension second).getD (refuse 1 .definition (some .typeSystemExtension))
    | _ => (typeSystem? .definition first).getD (refuse 0 .definition none)
  | _ => refuse 0 .definition none
where
  described : Choice :=
    (typeSystem? .definition second).getD (refuse 1 .definition (some .typeSystemDefinition))

end Choice

namespace Goal

/-- The production for a goal when a text starts with two tokens. -/
def choose (goal : Goal) (first second : Option Token) : Choice :=
  match goal with
  | production p => .take p
  | operation =>
    if first = some (.punct .braceOpen) then .take .shorthand else .kind .operationDefinition
  | inputValues =>
    if first = some (.punct .parenOpen) then .take .argumentDefinitions
    else .kind .inputValueDefinitionSet
  | value family => .value family first
  | selection => .selection first second
  | type => .type first
  | directiveLocation => .directiveLocation first
  | definition => .definition first second

end Goal

end GraphQLTree
