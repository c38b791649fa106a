import GraphQLTree.Traversal.Children
import GraphQLTree.Tree.Schema

/-!
# Walking trees

A walk goes over a tree depth first. It enters a node, walks the node's children in their order,
and leaves the node with the outputs of its children, which gives the node's own output. Both times
it knows the **visit**: the path from the node where the walk started, and the node's parent.
-/

namespace GraphQLTree

/-- Where a walk is. -/
structure Visit where
  /-- The way from the node where the walk started. -/
  path : Path
  /-- The node that the current one is a child of. -/
  parent : Option Node

namespace Visit

/-- Where a walk starts. -/
def root : Visit := ⟨[], none⟩

/-- The key of the current node in its parent: its index in a list, or else its slot. -/
def key (visit : Visit) : Option Segment :=
  visit.path.getLast?

/-- The visit of a node's next child in a slot, after those in the `earlier` slots. -/
def child (visit : Visit) (node : Node) (earlier : List Slot) (slot : Slot) : Visit :=
  ⟨visit.path ++ node.kind.stepTo earlier slot, some node⟩

end Visit

/-- What a walk does at each node. -/
structure Walker (m : Type → Type) (α : Type) where
  enter : Node → Visit → m Unit
  leave : Node → Children α → Visit → m α

namespace Node

variable {m : Type → Type} [Monad m] {α : Type}

mutual

/-- Walks a node and all its descendants. -/
def walk (walker : Walker m α) (visit : Visit) : Node → m α
  | mk kind atom children => do
    walker.enter (mk kind atom children) visit
    let entries ← walkChildren walker (visit.child (mk kind atom children)) [] children
    walker.leave (mk kind atom children) ⟨entries⟩ visit

/-- Walks children, of which those in the `earlier` slots have been walked before. -/
def walkChildren (walker : Walker m α) (visit : List Slot → Slot → Visit) (earlier : List Slot) :
    List (Slot × Node) → m (List (Slot × α))
  | [] => pure []
  | (slot, child) :: rest => do
    let output ← walk walker (visit earlier slot) child
    let outputs ← walkChildren walker visit (earlier ++ [slot]) rest
    pure ((slot, output) :: outputs)

end

/-- Walks nodes one after the other, starting from the given number. Each is a root with its number
for a path. -/
def walkFrom (walker : Walker m α) : Nat → List Node → m (List α)
  | _, [] => pure []
  | n, node :: nodes => do
    let output ← node.walk walker ⟨[.index n], none⟩
    let outputs ← walkFrom walker (n + 1) nodes
    pure (output :: outputs)

/-- Walks the nodes of a list one after the other. -/
def walkList (walker : Walker m α) (nodes : List Node) : m (List α) :=
  walkFrom walker 0 nodes

end Node

end GraphQLTree
