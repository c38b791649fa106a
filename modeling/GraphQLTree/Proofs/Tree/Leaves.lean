import GraphQLTree.Proofs.Tree.Bare
import GraphQLTree.Proofs.Tree.Regular

/-!
# Leaves

Names, values that have no parts, and directive locations are the **leaves** of a tree. Each of them is
written as one token (`Node.token`), which belongs to it. Comments aren't leaves, so a tree has the same
leaves without its comments (`Node.leaves_bare_mk`).
-/

namespace GraphQLTree

/-- A token with the kind of the node that it belongs to. -/
structure Owned where
  token : Token
  owner : Kind
  deriving DecidableEq

/-- Whether nodes of a kind are leaves. -/
def Kind.isLeaf : Kind → Bool
  | name => true
  | intValue => true
  | floatValue => true
  | stringValue => true
  | booleanValue => true
  | nullValue => true
  | enumValue => true
  | executableLocation => true
  | typeSystemLocation => true
  | _ => false

namespace Node

/-- The token that a leaf is written as. -/
def token (node : Node) : Token :=
  match node.kind, node.atom with
  | .name, .text text => .name text
  | .intValue, .text text => .int text
  | .floatValue, .text text => .float text
  | .stringValue, .string value false => .string value
  | .stringValue, .string value true => .blockString value
  | .booleanValue, .boolean true => .name Keyword.trueValue.text
  | .booleanValue, .boolean false => .name Keyword.falseValue.text
  | .nullValue, .none => .name Keyword.nullValue.text
  | .enumValue, .text text => .name text
  | .executableLocation, .executable location => .name location.text
  | .typeSystemLocation, .typeSystem location => .name location.text
  | _, _ => .invalid

/-- The token of a leaf, which belongs to it. -/
def owned (node : Node) : Owned :=
  ⟨node.token, node.kind⟩

/-- The tokens of the leaves among some nodes. -/
def leavesOf (nodes : List Node) : List Owned :=
  (nodes.filter (·.kind.isLeaf)).map owned

/-- The tokens of the leaves of a tree, in the order of its nodes. -/
def leaves (node : Node) : List Owned :=
  leavesOf node.nodes

theorem leavesOf_flatMap {α : Type} (as : List α) (f : α → List Node) :
    leavesOf (as.flatMap f) = as.flatMap fun a => leavesOf (f a) := by
  rw [leavesOf, List.filter_flatMap, List.map_flatMap]
  rfl

/-- The leaves of a tree are its root, if that is one, and the leaves below it. -/
theorem leaves_mk (kind : Kind) (atom : Atom) (children : List (Slot × Node)) :
    (mk kind atom children).leaves =
      leavesOf [mk kind atom children] ++ children.flatMap fun entry => entry.2.leaves := by
  rw [leaves, nodes, gather_mk, leavesOf, List.filter_append, List.map_append]
  exact congrArg _ (leavesOf_flatMap children fun entry => entry.2.nodes)

@[simp] theorem leaves_ofName (text : String) : (ofName text).leaves = [⟨.name text, .name⟩] :=
  rfl

@[simp] theorem leaves_ofComment (comment : Comment) : (ofComment comment).leaves = [] := by
  rw [ofComment, leaves_mk]
  cases comment.inline <;> rfl

/-- Without its comments and those below it, a node has the same leaves if its comments have none and its
other children have the same leaves without theirs. -/
theorem leaves_bare_mk {kind : Kind} {atom : Atom} {children : List (Slot × Node)}
    (hcomments : ∀ entry ∈ children, entry.1.holdsComments = true → entry.2.leaves = [])
    (hchildren : ∀ entry ∈ children, entry.1.holdsComments = false →
      entry.2.bare.leaves = entry.2.leaves) :
    (mk kind atom children).bare.leaves = (mk kind atom children).leaves := by
  have howned : (mk kind atom.bare (bareChildren children)).owned = (mk kind atom children).owned := by
    cases atom with
    | size bytes => cases kind <;> rfl
    | _ => rfl
  have hroot : leavesOf [mk kind atom.bare (bareChildren children)] =
      leavesOf [mk kind atom children] := by
    cases hkind : kind.isLeaf <;> simp [leavesOf, Node.kind, hkind, howned]
  rw [bare_mk, leaves_mk, leaves_mk, hroot]
  refine congrArg _ ?_
  clear hroot howned
  induction children with
  | nil => rfl
  | cons entry rest ih =>
    obtain ⟨hcomment, hcomments⟩ := List.forall_mem_cons.1 hcomments
    obtain ⟨hchild, hchildren⟩ := List.forall_mem_cons.1 hchildren
    rw [bareChildren_cons, List.flatMap_cons, ← ih hcomments hchildren]
    cases hslot : entry.1.holdsComments with
    | true => simp [hcomment hslot]
    | false => simp [hchild hslot]

end Node

end GraphQLTree
