/-!
# Operation types

The three types of operations, which are also the three root types of a schema.
-/

namespace GraphQLTree

/-- The types of operations. -/
inductive OperationType where
  | query
  | mutation
  | subscription
  deriving DecidableEq

namespace OperationType

/-- The keyword of an operation type. -/
def text : OperationType → String
  | query => "query"
  | mutation => "mutation"
  | subscription => "subscription"

/-- An operation type's identifier. -/
def identifier : OperationType → String
  | query => "Query"
  | mutation => "Mutation"
  | subscription => "Subscription"

/-- Every operation type once. -/
def all : List OperationType := [query, mutation, subscription]

/-- The operation type with a keyword. -/
def ofText? (text : String) : Option OperationType :=
  all.find? fun operation => operation.text == text

end OperationType

end GraphQLTree
