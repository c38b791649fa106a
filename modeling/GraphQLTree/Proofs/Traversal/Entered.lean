import GraphQLTree.Proofs.Tree.Regular
import GraphQLTree.Traversal.Walk

/-!
# The order of entering

A walk enters a node before the node's children, and the children with everything below them one after
the other. So it enters the nodes of a tree in the order in which they are listed (`Node.entered_eq_nodes`).
-/

namespace GraphQLTree

/-- A walk that does nothing but keep the nodes that it enters. -/
def Walker.entering : Walker (StateM (List Node)) Unit where
  enter node _ := modify (· ++ [node])
  leave _ _ _ := pure ()

namespace Node

/-- The nodes of a tree in the order in which a walk enters them. -/
def entered (node : Node) : List Node :=
  ((node.walk Walker.entering .root).run []).2

private theorem run_walkChildren_entering {children : List (Slot × Node)}
    (h : ∀ entry ∈ children, ∀ (visit : Visit) (before : List Node),
      ((entry.2.walk Walker.entering visit).run before).2 = before ++ entry.2.nodes)
    (visit : List Slot → Slot → Visit) (earlier : List Slot) (before : List Node) :
    ((walkChildren Walker.entering visit earlier children).run before).2 =
      before ++ children.flatMap fun entry => entry.2.nodes := by
  induction children generalizing earlier before with
  | nil => exact (List.append_nil before).symm
  | cons entry rest ih =>
    obtain ⟨hentry, hrest⟩ := List.forall_mem_cons.1 h
    calc ((walkChildren Walker.entering visit earlier (entry :: rest)).run before).2
        = ((walkChildren Walker.entering visit (earlier ++ [entry.1]) rest).run
            ((entry.2.walk Walker.entering (visit earlier entry.1)).run before).2).2 := rfl
      _ = before ++ entry.2.nodes ++ rest.flatMap fun entry => entry.2.nodes := by
        rw [hentry, ih hrest]
      _ = before ++ (entry :: rest).flatMap fun entry => entry.2.nodes := by
        rw [List.append_assoc, List.flatMap_cons]

/-- A walk adds all nodes of a tree to those that it has entered before. -/
theorem run_walk_entering (node : Node) : ∀ (visit : Visit) (before : List Node),
    ((node.walk Walker.entering visit).run before).2 = before ++ node.nodes := by
  induction node using Node.induction with
  | step kind atom children ih =>
    intro visit before
    calc (((mk kind atom children).walk Walker.entering visit).run before).2
        = ((walkChildren Walker.entering (visit.child (mk kind atom children)) [] children).run
            (before ++ [mk kind atom children])).2 := rfl
      _ = before ++ ([mk kind atom children] ++ children.flatMap fun entry => entry.2.nodes) := by
        rw [run_walkChildren_entering ih, List.append_assoc]
      _ = before ++ (mk kind atom children).nodes := by
        rw [nodes, gather_mk]
        rfl

theorem entered_eq_nodes (node : Node) : node.entered = node.nodes :=
  (node.run_walk_entering .root []).trans (List.nil_append _)

end Node

end GraphQLTree
