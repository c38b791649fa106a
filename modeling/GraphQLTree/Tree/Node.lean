import GraphQLTree.Token.Stream
import GraphQLTree.Tree.Kind
import GraphQLTree.Tree.Location
import GraphQLTree.Tree.Operation
import GraphQLTree.Tree.Path

/-!
# Nodes

A syntax tree is made of **nodes**. A node has a kind, an **atom**, which is what it holds besides
children, and its children, each with the slot it stands in. The children of one slot stand in the
order of the text. Which slots and which atom a kind has is said by the schema, not by the type of
nodes, so that every walk over a tree is one recursion.
-/

namespace GraphQLTree

/-- What a node holds besides its children. -/
inductive Atom where
  | none
  /-- The text of a name, a comment, a number or an enum value. -/
  | text (text : String)
  /-- The value of a string, and whether it is written as a block string. -/
  | string (value : String) (block : Bool)
  | boolean (value : Bool)
  | operation (operation : OperationType)
  /-- Whether a directive may be repeated. -/
  | repeatable (value : Bool)
  /-- The length in bytes of the text that a document was read from. -/
  | size (bytes : Nat)
  | executable (location : ExecutableLocation)
  | typeSystem (location : TypeSystemLocation)
  deriving DecidableEq

/-- A node of a syntax tree. -/
inductive Node where
  | mk (kind : Kind) (atom : Atom) (children : List (Slot × Node))

namespace Node

/-- A node's kind. -/
def kind : Node → Kind
  | mk kind _ _ => kind

/-- What a node holds besides its children. -/
def atom : Node → Atom
  | mk _ atom _ => atom

/-- A node's children with their slots, in order. -/
def children : Node → List (Slot × Node)
  | mk _ _ children => children

/-! ### Equality -/

mutual

/-- Whether two nodes are the same tree. -/
def decEq : (a b : Node) → Decidable (a = b)
  | mk kind atom children, mk kind' atom' children' =>
    if h : kind = kind' ∧ atom = atom' then
      match decEqList children children' with
      | isTrue h' => isTrue (by rw [h.1, h.2, h'])
      | isFalse h' => isFalse fun e => h' (by injection e)
    else isFalse fun e => h (by injection e with h₁ h₂; exact ⟨h₁, h₂⟩)

/-- Whether two lists of children are the same. -/
def decEqList : (as bs : List (Slot × Node)) → Decidable (as = bs)
  | [], [] => isTrue rfl
  | [], _ :: _ => isFalse (by simp)
  | _ :: _, [] => isFalse (by simp)
  | (slot, a) :: as, (slot', b) :: bs =>
    if h : slot = slot' then
      match decEq a b, decEqList as bs with
      | isTrue h₁, isTrue h₂ => isTrue (by rw [h, h₁, h₂])
      | isFalse h₁, _ => isFalse fun e => h₁ (by injection e with e; injection e)
      | _, isFalse h₂ => isFalse fun e => h₂ (by injection e)
    else isFalse fun e => h (by injection e with e; injection e)

end

instance : DecidableEq Node := decEq

/-! ### Making nodes -/

/-- A name. -/
def ofName (text : String) : Node :=
  mk .name (.text text) []

/-- A comment. -/
def ofComment (comment : Comment) : Node :=
  mk (if comment.inline then .inlineComment else .blockComment) (.text comment.text) []

/-- Comments as children in a slot. -/
def ofComments (slot : Slot) (comments : List Comment) : List (Slot × Node) :=
  comments.map fun comment => (slot, ofComment comment)

/-! ### Looking at nodes -/

/-- The text of a node's atom, which is empty if it has none. -/
def text (node : Node) : String :=
  match node.atom with
  | .text text => text
  | _ => ""

/-- The children in a slot, in order. -/
def inSlot (node : Node) (slot : Slot) : List Node :=
  (node.children.filter (·.1 = slot)).map (·.2)

/-- The first child in a slot. -/
def inSlot? (node : Node) (slot : Slot) : Option Node :=
  (node.inSlot slot).head?

/-- The text of the name that stands in a slot. -/
def nameIn? (node : Node) (slot : Slot) : Option String :=
  (node.inSlot? slot).map text

end Node

end GraphQLTree
