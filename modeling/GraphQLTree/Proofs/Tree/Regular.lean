import GraphQLTree.Proofs.Grammar.Gather
import GraphQLTree.Proofs.Token.Literal
import GraphQLTree.Proofs.Tree.WellFormed

/-!
# Regular nodes

Nothing keeps a node that is made by hand from having empty sets, names that are no names or comments
in any order. A node that was read is **regular**: it holds what its kind can hold, sets that the language
wants something in have something, reserved words aren't used as names, extensions add something, and
where all comments of a slot belong to one token, only the last of them is inline. The one thing that may
be wrong with a node that was read is that its number ends bare.
-/

namespace GraphQLTree

namespace Kind

/-- What a node of a kind that was read holds besides its children, if `bare` says whether numbers may
end bare. -/
def Admits (bare : Prop) : Kind → Atom → Prop
  | name, atom => ∃ text, atom = .text text ∧ Token.IsName text.toList
  | intValue, atom => ∃ text, atom = .text text ∧
      (Token.IsInteger text.toList ∨ bare ∧ Token.EndsBare Token.IsInteger text.toList)
  | floatValue, atom => ∃ text, atom = .text text ∧
      (Token.IsFloat text.toList ∨ bare ∧ Token.EndsBare Token.IsFloat text.toList)
  | enumValue, atom => ∃ text, atom = .text text ∧ Token.IsName text.toList ∧
      ∀ k ∈ [Keyword.trueValue, .falseValue, .nullValue], text ≠ k.text
  | stringValue, atom => ∃ value block, atom = .string value block ∧
      (block = true → ∃ raw, value = String.ofList (Text.dedent raw))
  | _, _ => True

/-- Whether nodes of a kind have one token of their own. -/
def isToken : Kind → Bool
  | intValue => true
  | floatValue => true
  | stringValue => true
  | booleanValue => true
  | nullValue => true
  | enumValue => true
  | namedType => true
  | nonNullType => true
  | executableLocation => true
  | typeSystemLocation => true
  | _ => false

/-- The slots that have the comments of one token only. -/
def soleSlots (kind : Kind) : List Slot :=
  [.commentsOpeningBracket, .commentsClosingBracket] ++ if kind.isToken then [.comments] else []

theorem holdsComments_of_mem_soleSlots {kind : Kind} {slot : Slot} (h : slot ∈ kind.soleSlots) :
    slot.holdsComments = true := by
  rcases List.mem_append.1 h with h | h
  · simp only [List.mem_cons, List.not_mem_nil, or_false] at h
    rcases h with rfl | rfl <;> rfl
  · split at h
    · obtain rfl := List.mem_singleton.1 h
      rfl
    · cases h

end Kind

namespace Node

/-! ### All nodes of a tree -/

/-- All nodes of a tree, each before its children. -/
def nodes (node : Node) : List Node :=
  node.gather fun n => [n]

theorem mem_nodes_mk {n : Node} {kind : Kind} {atom : Atom} {children : List (Slot × Node)} :
    n ∈ (mk kind atom children).nodes ↔
      n = mk kind atom children ∨ ∃ entry ∈ children, n ∈ entry.2.nodes := by
  rw [nodes, gather_mk, List.singleton_append, List.mem_cons, List.mem_flatMap]
  rfl

/-! ### Regularity -/

/-- Whether a node, but for the nodes below it, is as nodes that are read are, if `bare` says whether
numbers may end bare. -/
structure Regular (bare : Prop) (node : Node) : Prop where
  admits : node.kind.Admits bare node.atom
  /-- There is something where the language wants something. -/
  filled : ∀ slot ∈ node.kind.filledSlot?, node.inSlot slot ≠ []
  /-- The name is no word that is reserved there. -/
  named : ∀ child ∈ node.inSlot .name, ∀ k ∈ node.kind.reserved, child.text ≠ k.text
  /-- An extension has directives or one of its optional parts. -/
  adds : Language.isExtension node.kind = true →
    ∃ field ∈ node.kind.fields, field.arity ≠ .one ∧ field.slot.holdsComments = false ∧
      node.inSlot field.slot ≠ []
  /-- Only the last comment of a token is inline. -/
  inline : ∀ slot ∈ node.kind.soleSlots, ∀ comment ∈ (node.inSlot slot).dropLast,
    comment.kind = .blockComment

end Node

end GraphQLTree
