import GraphQLTree.Tree.Query

/-!
# Nodes of the two families

A node of the constant family is **widened** to the general one by changing the kinds of lists, objects
and their fields (`Node.widen`). The two kinds of a family have the same slots, so it doesn't matter
whether children are arranged before or after they are widened (`Node.widenChildren_arrange`).
-/

namespace GraphQLTree

namespace Kind

/-- The fields of a kind stand in the same slots in both families. -/
theorem slots_widen (kind : Kind) :
    kind.widen.fields.map Field.slot = kind.fields.map Field.slot := by
  cases kind <;> rfl

/-- There is nothing beyond the general family. -/
theorem widen_widen (kind : Kind) : kind.widen.widen = kind.widen := by
  cases kind <;> rfl

/-- Only comments are inline comments in either family. -/
theorem widen_eq_inlineComment (kind : Kind) :
    kind.widen = .inlineComment ↔ kind = .inlineComment := by
  cases kind <;> simp [Kind.widen]

end Kind

namespace Node

theorem widen_mk (kind : Kind) (atom : Atom) (children : List (Slot × Node)) :
    widen (mk kind atom children) = mk kind.widen atom (widenChildren children) := by
  rw [widen]

theorem kind_widen (node : Node) : node.widen.kind = node.kind.widen := by
  obtain ⟨kind, atom, children⟩ := node
  rw [widen_mk]
  rfl

/-- Children are widened one by one, each in its slot. -/
theorem widenChildren_eq (children : List (Slot × Node)) :
    widenChildren children = children.map fun entry => (entry.1, entry.2.widen) := by
  induction children with
  | nil => rfl
  | cons entry rest ih =>
    obtain ⟨slot, child⟩ := entry
    rw [widenChildren, ih]
    rfl

theorem widenChildren_append (a b : List (Slot × Node)) :
    widenChildren (a ++ b) = widenChildren a ++ widenChildren b := by
  simp only [widenChildren_eq, List.map_append]

@[simp] theorem widen_ofName (text : String) : (ofName text).widen = ofName text := by
  rw [ofName, widen_mk]
  rfl

@[simp] theorem widen_ofComment (comment : Comment) :
    (ofComment comment).widen = ofComment comment := by
  rw [ofComment, widen_mk]
  cases comment.inline <;> rfl

/-- Comments are of no family. -/
theorem widenChildren_ofComments (slot : Slot) (comments : List Comment) :
    widenChildren (ofComments slot comments) = ofComments slot comments := by
  simp [widenChildren_eq, ofComments]

/-- It doesn't matter whether children are arranged before or after they are widened. -/
theorem widenChildren_arrange (kind : Kind) (entries : List (Slot × Node)) :
    widenChildren (arrange kind entries) = arrange kind.widen (widenChildren entries) := by
  have harrange (kind : Kind) (entries : List (Slot × Node)) : arrange kind entries =
      (kind.fields.map Field.slot).flatMap fun slot =>
        entries.filter fun entry => entry.1 = slot := by
    rw [arrange, List.flatMap_map]
  simp only [harrange, Kind.slots_widen, widenChildren_eq, List.map_flatMap, List.filter_map]
  rfl

end Node

end GraphQLTree
