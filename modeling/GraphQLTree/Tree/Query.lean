import GraphQLTree.Tree.Schema

/-!
# Questions about nodes

What is asked about nodes of single kinds: the key a field answers under, the name inside a type,
the directives of a node, an argument by its name; and the conversion of constant values to values
of the general family.
-/

namespace GraphQLTree

/-- Whether an operation with an atom and children in some slots is a query with a selection set
alone, which may be written as just that set. -/
def isShorthand (atom : Atom) (slots : List Slot) : Bool :=
  atom = .operation .query && !slots.contains .name && !slots.contains .variableDefinitions &&
    !slots.contains .directives

namespace Node

/-- Whether an operation may be written as its selection set alone. -/
def isShorthand (node : Node) : Bool :=
  GraphQLTree.isShorthand node.atom (node.children.map (·.1))

/-- The name that a field answers under: its alias if it has one. -/
def responseName (node : Node) : String :=
  ((node.nameIn? .aliasName).orElse fun _ => node.nameIn? .name).getD ""

mutual

/-- The name of the innermost type of a type, or of a node that has a type. -/
def innermostName : Node → String
  | mk .namedType atom children => ((mk .namedType atom children).nameIn? .name).getD ""
  | mk _ _ children => innermostNameIn children

/-- The name of the innermost type of the child that is a type. -/
def innermostNameIn : List (Slot × Node) → String
  | [] => ""
  | (.type, child) :: _ => innermostName child
  | _ :: rest => innermostNameIn rest

end

/-- The names of a node's directives. -/
def directiveNames (node : Node) : List String :=
  (node.inSlot .directives).map fun directive => (directive.nameIn? .name).getD ""

/-- The value of the first argument with a name in a set of arguments. -/
def argumentValue? (node : Node) (name : String) : Option Node := do
  let argument ← (node.inSlot .arguments).find? fun argument => argument.nameIn? .name = some name
  argument.inSlot? .value

/-- Whether a definition belongs to executable documents. -/
def isExecutable (node : Node) : Bool :=
  node.kind = .operationDefinition || node.kind = .fragmentDefinition

/-- The items of a node that is a list, which are its children besides comments. -/
def items (node : Node) : List Node :=
  (node.children.filter fun entry => !entry.1.holdsComments).map (·.2)

/-- The name of a directive location as it is written. -/
def locationText (node : Node) : String :=
  match node.atom with
  | .executable location => location.text
  | .typeSystem location => location.text
  | _ => ""

mutual

/-- A constant value as a value of the general family, in which only the kinds of lists, objects
and their fields differ. -/
def widen : Node → Node
  | mk kind atom children => mk kind.widen atom (widenChildren children)

/-- Children in the general family. -/
def widenChildren : List (Slot × Node) → List (Slot × Node)
  | [] => []
  | (slot, child) :: rest => (slot, widen child) :: widenChildren rest

end

end Node

end GraphQLTree
