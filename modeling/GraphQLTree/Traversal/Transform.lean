import GraphQLTree.Diagnostic.Basic
import GraphQLTree.Traversal.Walk

/-!
# Transforming trees

A transformation walks a tree with two **hooks**, one on entering and one on leaving a node, which
may return a node to replace it. The children of a node that was replaced on entering are walked in
place of those of the node it stands for; it isn't entered again. A node of which a child has been
replaced is rebuilt with its new children, each of which has to fit its field. At last the root has
to fit what the tree is transformed as.

Replacements may hold nodes that are replaced in turn, so a transformation is given a depth of
nesting beyond which it fails.
-/

namespace GraphQLTree

/-- What hooks can do: keep a state, and stop the transformation. What was done before stays in the
state. -/
abbrev Transforming (σ : Type) : Type → Type := ExceptT Diagnostic (StateM σ)

/-- A hook, which returns the replacement for a node or nothing. -/
abbrev Hook (σ : Type) : Type := Node → Visit → Transforming σ (Option Node)

/-- The two hooks of a transformation. -/
structure Hooks (σ : Type) where
  enter : Hook σ
  leave : Hook σ

/-- Hooks that replace nothing. -/
def Hooks.idle {σ : Type} : Hooks σ :=
  ⟨fun _ _ => pure none, fun _ _ => pure none⟩

namespace Node

/-! ### Rebuilding -/

/-- The entries of one field, checked: a field that isn't a list has its first entry only. -/
def placeField (kind : Kind) (entries : List (Slot × Node)) (field : Field) :
    Except Problem (List (Slot × Node)) :=
  let all := entries.filter fun entry => entry.1 = field.slot
  let placed := if field.arity = .list then all else all.take 1
  if placed.isEmpty && field.arity = .one then .error (.missing field.slot kind)
  else match placed.find? fun entry => !field.content.accepts entry.2.kind with
    | some entry => .error (.misplaced entry.2.kind field.slot kind)
    | none => .ok placed

/-- The node of a kind with the given children, if each of them fits its field. The first field
that has a problem is reported. -/
def rebuild (kind : Kind) (atom : Atom) (entries : List (Slot × Node)) : Except Problem Node := do
  let placed ← kind.fields.mapM (placeField kind entries)
  return mk kind atom placed.flatten

/-! ### The walk -/

/-- A node that has been transformed, and whether anything in it was replaced. -/
structure Transformed where
  node : Node
  changed : Bool

variable {σ : Type}

/-- Transforms children, of which those in the `earlier` slots have been transformed before. -/
def transformChildren (transform : Visit → Node → Transforming σ Transformed)
    (visit : List Slot → Slot → Visit) (earlier : List Slot) :
    List (Slot × Node) → Transforming σ (List (Slot × Transformed))
  | [] => pure []
  | (slot, child) :: rest => do
    let output ← transform (visit earlier slot) child
    let outputs ← transformChildren transform visit (earlier ++ [slot]) rest
    pure ((slot, output) :: outputs)

/-- Transforms a node and all its descendants, up to a depth of nesting. -/
def transformWithin (hooks : Hooks σ) : Nat → Visit → Node → Transforming σ Transformed
  | 0, _, _ => throw (.placeless .tooDeep)
  | depth + 1, visit, node => do
    let replacement ← hooks.enter node visit
    let entered := replacement.getD node
    let children ←
      transformChildren (transformWithin hooks depth) (visit.child entered) [] entered.children
    let changed := children.any fun entry => entry.2.changed
    let rebuilt ←
      if changed then
        match rebuild entered.kind entered.atom
            (children.map fun entry => (entry.1, entry.2.node)) with
        | .ok node => pure node
        | .error problem => throw (.placeless problem)
      else pure entered
    let final ← hooks.leave rebuilt visit
    pure ⟨final.getD rebuilt, replacement.isSome || changed || final.isSome⟩

/-- Transforms a tree as something of a content, which its root has to fit if anything changed. -/
def transform (hooks : Hooks σ) (depth : Nat) (content : Content) (node : Node) :
    Transforming σ Transformed := do
  let transformed ← transformWithin hooks depth .root node
  if !transformed.changed || content.accepts transformed.node.kind then pure transformed
  else throw (.placeless (.irreplaceable node.kind transformed.node.kind))

/-- A depth of nesting that trees don't reach unless replacements go on without end. -/
def transformDepth : Nat := 100000

end Node

end GraphQLTree
