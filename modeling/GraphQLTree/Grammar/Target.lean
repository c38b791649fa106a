import GraphQLTree.Grammar.Goal

/-!
# Targets of parsing

A text can be parsed as a whole document or as any goal. Each target has a content, which is the
set of kinds of the nodes that it gives.
-/

namespace GraphQLTree

/-- What a text can be parsed as. -/
inductive Target where
  | document
  | goal (goal : Goal)
  deriving DecidableEq

/-- The kinds of the nodes that a goal gives. -/
def Goal.content : Goal → Content
  | production p => .kind p.kind
  | operation => .kind .operationDefinition
  | inputValues => .kind .inputValueDefinitionSet
  | value family => .value family
  | selection => .selection
  | type => .type
  | directiveLocation => .directiveLocation
  | definition => .definition

namespace Target

/-- The kinds of the nodes that a target gives. -/
def content : Target → Content
  | document => .kind .document
  | goal g => g.content

/-- The target of the nodes of a kind. Names, comments and directive locations have no text of
their own, and neither have sets of named types, whose text depends on what they stand in; types
that don't admit null are found by asking for any type. -/
def ofKind? : Kind → Option Target
  | .name => none
  | .blockComment => none
  | .inlineComment => none
  | .nonNullType => none
  | .namedTypeSet => none
  | .executableLocation => none
  | .typeSystemLocation => none
  | .document => some document
  | .operationDefinition => some (goal .operation)
  | .inputValueDefinitionSet => some (goal .inputValues)
  | kind => some (goal (.kind kind))

end Target

end GraphQLTree
