import GraphQLTree.Proofs.Grammar.Slots
import GraphQLTree.Proofs.Tree.Leaves

/-!
# Leaves of nodes that are read

In a node that was read, nothing but comments stands in the slots for comments, so the node has the same
leaves without them (`Derives.leaves_bare`).
-/

namespace GraphQLTree

theorem Node.leaves_ofComments {slot : Slot} {comments : List Comment} {entry : Slot × Node}
    (h : entry ∈ ofComments slot comments) :
    entry.2.leaves = [] ∧ entry.2.bare.leaves = entry.2.leaves := by
  obtain ⟨comment, -, rfl⟩ := List.mem_map.1 h
  exact ⟨leaves_ofComment comment, leaves_bare_mk (by simp) (by simp)⟩

/-- A node with comments and one child has the leaves of the child. -/
theorem Node.leaves_bare_of_child {kind : Kind} {atom : Atom} (comments : List Comment) {slot : Slot}
    (hslot : slot.holdsComments = false) {child : Node} (hchild : child.bare.leaves = child.leaves) :
    (mk kind atom (ofComments .comments comments ++ [(slot, child)])).bare.leaves =
      (mk kind atom (ofComments .comments comments ++ [(slot, child)])).leaves := by
  refine leaves_bare_mk (fun entry hentry hholds => ?_) (fun entry hentry _ => ?_)
  · rcases List.mem_append.1 hentry with hentry | hentry
    · exact (leaves_ofComments hentry).1
    · obtain rfl := List.mem_singleton.1 hentry
      exact absurd hholds (by simp [hslot])
  · rcases List.mem_append.1 hentry with hentry | hentry
    · exact (leaves_ofComments hentry).2
    · obtain rfl := List.mem_singleton.1 hentry
      exact hchild

/-- The entries of tidy elements are comments, or they stand in other slots and have the same leaves
without comments if the children do. -/
theorem Elements.leaves_entries {elements : List Element} (htidy : ∀ shape ∈ shapes elements, shape.IsTidy)
    (hchildren : ∀ slot goal c, .child slot goal c ∈ elements → c.node.bare.leaves = c.node.leaves) :
    ∀ entry ∈ entries elements, (entry.1.holdsComments = true → entry.2.leaves = []) ∧
      entry.2.bare.leaves = entry.2.leaves := by
  intro entry hentry
  rcases mem_entries hentry with ⟨slot, word, spare, gift, -, comment, hcomment, rfl⟩ |
    ⟨slot, word, spare, named, text, hmem, rfl⟩ | ⟨slot, goal, c, hmem, rfl⟩
  · have hleaves := Node.leaves_ofComments (List.mem_map_of_mem (f := (slot, Node.ofComment ·)) hcomment)
    exact ⟨fun _ => hleaves.1, hleaves.2⟩
  · have hslot : named.holdsComments = false := (htidy _ (List.mem_map_of_mem hmem)).slot? rfl
    exact ⟨fun hholds => absurd hholds (by simp [hslot]), by simp⟩
  · have hslot : slot.holdsComments = false := (htidy _ (List.mem_map_of_mem hmem)).slot? rfl
    exact ⟨fun hholds => absurd hholds (by simp [hslot]), hchildren slot goal c hmem⟩

/-- A node that is derived from words has the same leaves without its comments and those below it. -/
theorem Derives.leaves_bare {goal : Goal} {marks : List Mark} {pieces : List Piece} {node : Node}
    (h : Derives goal marks pieces node) : node.bare.leaves = node.leaves := by
  induction h with
  | @production goal p description elements hgoal hreadable hdescribed hspells hdemand hquery
      hdescription hchildren ihdescription ihchildren =>
    have htidy : ∀ shape ∈ Elements.shapes (descriptionElements description ++ elements),
        shape.IsTidy := by
      rw [Elements.shapes_append]
      refine List.forall_mem_append.2 ⟨?_, hspells.isTidy (Production.items_isReadable hreadable).2⟩
      cases description <;> simp [descriptionElements, Shape.IsTidy, Slot.holdsComments]
    have hentries := Elements.leaves_entries htidy fun slot goal c hmem => by
      rcases List.mem_append.1 hmem with hmem | hmem
      · exact ihdescription c (mem_descriptionElements hmem).2.2
      · exact ihchildren slot goal c hmem
    exact Node.leaves_bare_mk
      (fun entry hentry => (hentries entry (Node.arrange_subset _ _ hentry)).1)
      (fun entry hentry _ => (hentries entry (Node.arrange_subset _ _ hentry)).2)
  | @query goal child comments hgoal hshorthand hchild ih =>
    exact Node.leaves_bare_of_child comments rfl ih
  | @nonNull marks pieces node comments h hkind ih =>
    exact Node.leaves_bare_of_child comments rfl ih

end GraphQLTree
