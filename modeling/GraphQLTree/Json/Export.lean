import GraphQLTree.Json.Basic
import GraphQLTree.Tree.Schema

/-!
# Trees as JSON

Every node is exported as an object with a member for each of its fields and for what its atom
holds. A field that may be left out is null where it is, a list is an array, and a node in a place
that asks for a union is wrapped in an object of one member, the node's tag in that union. The
length of the text that a document was read from isn't exported.
-/

namespace GraphQLTree.Json

/-- The name of a slot with an underscore and a lower-case letter for every upper-case one. -/
def snakeCase (cs : List Char) : List Char :=
  cs.flatMap fun c => if 'A' ≤ c ∧ c ≤ 'Z' then ['_', c.toLower] else [c]

/-- The name of a field's member. A type is named for what it is the type of. -/
def memberName (kind : Kind) (slot : Slot) : String :=
  match kind, slot with
  | .operationTypeDefinition, .type => "named_type"
  | _, .type => "of_type"
  | _, _ => String.ofList (snakeCase slot.text.toList)

/-- The members for what an atom holds. -/
def atomMembers : Atom → List (String × Json)
  | .none => []
  | .text text => [("value", string text)]
  | .string value block => [("value", string value), ("block", boolean block)]
  | .boolean value => [("value", boolean value)]
  | .operation operation => [("operation", string operation.identifier)]
  | .repeatable value => [("repeatable", boolean value)]
  | .size _ => []
  | .executable location => [("value", string location.identifier)]
  | .typeSystem location => [("value", string location.identifier)]

/-- Wraps an exported node in its tag, in a place that asks for a union. -/
def tagged (content : Content) (kind : Kind) (json : Json) : Json :=
  match content.tag? kind with
  | some tag => object [(tag, json)]
  | none => json

/-- The value of a field's member, from the exported children in its slot. -/
def fieldValue (field : Field) (children : List (Slot × Kind × Json)) : Json :=
  let values := (children.filter fun entry => entry.1 = field.slot).map fun entry =>
    tagged field.content entry.2.1 entry.2.2
  if field.arity = .list then array values else values.head?.getD null

mutual

/-- A node as JSON. -/
def ofNode : Node → Json
  | .mk kind atom children =>
    let exported := ofChildren children
    object (atomMembers atom ++
      kind.fields.map fun field => (memberName kind field.slot, fieldValue field exported))

/-- The children of a node as JSON, with their slots and kinds. -/
def ofChildren : List (Slot × Node) → List (Slot × Kind × Json)
  | [] => []
  | (slot, child) :: rest => (slot, child.kind, ofNode child) :: ofChildren rest

end

/-- A node as JSON in a place that asks for a content. -/
def ofNodeAs (content : Content) (node : Node) : Json :=
  tagged content node.kind (ofNode node)

end GraphQLTree.Json
