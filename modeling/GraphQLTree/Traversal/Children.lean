import GraphQLTree.Tree.Path

/-!
# Outputs of children

When a walk leaves a node, it has the outputs of the node's children, each under the slot of its
child and in the order in which the children were visited. `take` and `takeAll` hand outputs out
by slot, each of them once.
-/

namespace GraphQLTree

/-- The outputs of a node's children that haven't been taken yet. -/
structure Children (α : Type) where
  entries : List (Slot × α)

namespace Children

variable {α : Type}

/-- All outputs, in order. -/
def outputs (children : Children α) : List α :=
  children.entries.map (·.2)

/-- The number of outputs. -/
def size (children : Children α) : Nat :=
  children.entries.length

/-- Whether there is no output. -/
def isEmpty (children : Children α) : Bool :=
  children.entries.isEmpty

/-- Whether an output is found under a segment. None is found under an index. -/
def isUnder (segment : Segment) (entry : Slot × α) : Bool :=
  segment = .slot entry.1

/-- Takes the first entry that a test holds of out of a list. -/
def takeFirst (test : Slot × α → Bool) : List (Slot × α) → Option α × List (Slot × α)
  | [] => (none, [])
  | entry :: rest =>
    if test entry then (some entry.2, rest)
    else
      let (output, left) := takeFirst test rest
      (output, entry :: left)

/-- Takes the first output under a segment. -/
def take (children : Children α) (segment : Segment) : Option α × Children α :=
  let (output, left) := takeFirst (isUnder segment) children.entries
  (output, ⟨left⟩)

/-- Takes all outputs under a segment, in order. -/
def takeAll (children : Children α) (segment : Segment) : List α × Children α :=
  let (taken, left) := children.entries.partition (isUnder segment)
  (taken.map (·.2), ⟨left⟩)

end Children

end GraphQLTree
