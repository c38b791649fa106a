import GraphQLTree.Tree.Node
import GraphQLTree.Tree.Schema

/-!
# Bare nodes

A **bare** node has no comments anywhere in it and doesn't say how long the text is that it was read
from. Two nodes that are the same when they are made bare (`Node.bare`) differ in their comments only.
-/

namespace GraphQLTree

/-- An atom that doesn't say how long a text is. -/
def Atom.bare : Atom → Atom
  | size _ => size 0
  | atom => atom

namespace Node

mutual

/-- A node without comments and without the length of its text. -/
def bare : Node → Node
  | mk kind atom children => mk kind atom.bare (bareChildren children)

/-- Children without comments. -/
def bareChildren : List (Slot × Node) → List (Slot × Node)
  | [] => []
  | (slot, child) :: rest =>
    if slot.holdsComments then bareChildren rest else (slot, bare child) :: bareChildren rest

end

@[simp] theorem bareChildren_nil : bareChildren [] = [] := rfl

theorem bareChildren_cons (slot : Slot) (child : Node) (rest : List (Slot × Node)) :
    bareChildren ((slot, child) :: rest) =
      if slot.holdsComments then bareChildren rest
      else (slot, bare child) :: bareChildren rest := by
  rw [bareChildren]

/-- Children are made bare by leaving out comments and making bare what is left. -/
theorem bareChildren_eq (children : List (Slot × Node)) :
    bareChildren children = (children.filter fun entry => !entry.1.holdsComments).map
      fun entry => (entry.1, bare entry.2) := by
  induction children with
  | nil => rfl
  | cons entry rest ih =>
    obtain ⟨slot, child⟩ := entry
    rw [bareChildren_cons, ih]
    cases h : slot.holdsComments <;> simp [h]

theorem bareChildren_append (a b : List (Slot × Node)) :
    bareChildren (a ++ b) = bareChildren a ++ bareChildren b := by
  simp only [bareChildren_eq, List.filter_append, List.map_append]

/-- Comments leave nothing behind. -/
theorem bareChildren_ofComments {slot : Slot} (h : slot.holdsComments = true)
    (comments : List Comment) : bareChildren (ofComments slot comments) = [] := by
  simp only [bareChildren_eq, ofComments, List.map_eq_nil_iff, List.filter_eq_nil_iff]
  intro entry hentry
  obtain ⟨comment, -, rfl⟩ := List.mem_map.1 hentry
  simp [h]

/-- Children of one slot that isn't for comments are made bare one by one. -/
theorem bareChildren_map {slot : Slot} (h : slot.holdsComments = false) (nodes : List Node) :
    bareChildren (nodes.map (slot, ·)) = (nodes.map bare).map (slot, ·) := by
  induction nodes with
  | nil => rfl
  | cons node nodes ih => simp [bareChildren_cons, h, ih]

/-- It doesn't matter whether children are arranged before or after they are made bare. -/
theorem bareChildren_arrange (kind : Kind) (entries : List (Slot × Node)) :
    bareChildren (arrange kind entries) = arrange kind (bareChildren entries) := by
  have hfield (slot : Slot) : bareChildren (entries.filter fun entry => entry.1 = slot) =
      (bareChildren entries).filter fun entry => entry.1 = slot := by
    simp only [bareChildren_eq, List.filter_map, List.filter_filter]
    congr 1
    exact List.filter_congr fun entry _ => Bool.and_comm _ _
  unfold arrange
  induction kind.fields with
  | nil => rfl
  | cons field fields ih => rw [List.flatMap_cons, List.flatMap_cons, bareChildren_append, ih, hfield]

@[simp] theorem bare_mk (kind : Kind) (atom : Atom) (children : List (Slot × Node)) :
    bare (mk kind atom children) = mk kind atom.bare (bareChildren children) := by
  rw [bare]

theorem kind_bare (node : Node) : node.bare.kind = node.kind := by
  obtain ⟨kind, atom, children⟩ := node
  rw [bare_mk]
  rfl

@[simp] theorem bare_ofName (text : String) : (ofName text).bare = ofName text := by
  simp [ofName, Atom.bare]

end Node

end GraphQLTree
