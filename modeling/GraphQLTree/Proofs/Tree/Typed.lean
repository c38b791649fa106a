import GraphQLTree.Proofs.Grammar.Slots

/-!
# Typed nodes

Nothing keeps a node from having any children in any slots. A node is **typed** if it and all nodes
below it have the children that the schema describes: they stand in the order of the fields of their
parent's kind, there are as many in each field as its arity allows, and their kinds are of the field's
content. It doesn't matter what names and other texts say. Whether a node is typed can be decided.
-/

namespace GraphQLTree

/-- Whether so many children can stand in a field. -/
def Arity.Allows : Arity → Nat → Prop
  | one, n => n = 1
  | optional, n => n ≤ 1
  | list, _ => True

instance (arity : Arity) (n : Nat) : Decidable (arity.Allows n) :=
  match arity with
  | .one => inferInstanceAs (Decidable (n = 1))
  | .optional => inferInstanceAs (Decidable (n ≤ 1))
  | .list => inferInstanceAs (Decidable True)

namespace Node

/-- Whether the children of a node are as the schema describes them, but for their own children. -/
structure Fits (node : Node) : Prop where
  /-- The children stand in the order of the kind's fields. -/
  arranged : node.children = arrange node.kind node.children
  count : ∀ field ∈ node.kind.fields, field.arity.Allows (node.inSlot field.slot).length
  content : ∀ field ∈ node.kind.fields, ∀ child ∈ node.inSlot field.slot,
    field.content.accepts child.kind = true

/-- Whether a node and all nodes below it are as the schema describes them. -/
inductive Typed : Node → Prop
  | intro {node : Node} (fits : node.Fits) (children : ∀ entry ∈ node.children, Typed entry.2) :
    Typed node

instance (node : Node) : Decidable node.Fits :=
  decidable_of_iff
    (node.children = arrange node.kind node.children ∧
      (∀ field ∈ node.kind.fields, field.arity.Allows (node.inSlot field.slot).length) ∧
      ∀ field ∈ node.kind.fields, ∀ child ∈ node.inSlot field.slot,
        field.content.accepts child.kind = true)
    ⟨fun ⟨arranged, count, content⟩ => ⟨arranged, count, content⟩,
      fun h => ⟨h.arranged, h.count, h.content⟩⟩

theorem Typed.fits {node : Node} : node.Typed → node.Fits
  | intro fits _ => fits

theorem Typed.children {node : Node} : node.Typed → ∀ entry ∈ node.children, entry.2.Typed
  | intro _ children => children

mutual

/-- Decides whether a node is typed. -/
def decTyped : (node : Node) → Decidable node.Typed
  | mk kind atom children =>
    if fits : (mk kind atom children).Fits then
      match decTypedChildren children with
      | isTrue h => isTrue (.intro fits h)
      | isFalse h => isFalse fun typed => h typed.children
    else isFalse fun typed => fits typed.fits

/-- Decides whether all children in a list are typed. -/
def decTypedChildren :
    (children : List (Slot × Node)) → Decidable (∀ entry ∈ children, entry.2.Typed)
  | [] => isTrue (by simp)
  | (slot, child) :: rest =>
    match decTyped child, decTypedChildren rest with
    | isTrue h, isTrue h' => isTrue (List.forall_mem_cons.2 ⟨h, h'⟩)
    | isFalse h, _ => isFalse fun typed => h (typed (slot, child) List.mem_cons_self)
    | _, isFalse h => isFalse fun typed => h fun entry hentry =>
        typed entry (List.mem_cons_of_mem _ hentry)

end

instance : DecidablePred Typed := decTyped

/-- What holds of a node if it holds of all its children, holds of every node. -/
theorem induction {motive : Node → Prop}
    (step : ∀ kind atom children, (∀ entry ∈ children, motive entry.2) →
      motive (mk kind atom children)) (node : Node) : motive node :=
  Node.rec (motive_1 := motive) (motive_2 := fun children => ∀ entry ∈ children, motive entry.2)
    (motive_3 := fun entry => motive entry.2) step (fun _ h => absurd h List.not_mem_nil)
    (fun _ _ hentry hrest => List.forall_mem_cons.2 ⟨hentry, hrest⟩) (fun _ _ h => h) node

/-! ### Fields -/

/-- Every child stands in a field that its kind fits. -/
theorem Fits.exists_field {node : Node} (h : node.Fits) {entry : Slot × Node}
    (hentry : entry ∈ node.children) :
    ∃ field ∈ node.kind.fields, field.slot = entry.1 ∧ field.content.accepts entry.2.kind = true := by
  have hslot : entry.1 ∈ node.kind.slots := mem_slots_of_arrange (h.arranged ▸ hentry)
  obtain ⟨field, hfield, hname⟩ := List.mem_map.1 hslot
  refine ⟨field, hfield, hname, h.content field hfield entry.2 ?_⟩
  exact List.mem_map.2 ⟨entry, List.mem_filter.2 ⟨hentry, by simp [hname]⟩, rfl⟩

/-- Comments stand in the slots for comments, and nothing else does. -/
theorem Fits.isComment_kind {node : Node} (h : node.Fits) {entry : Slot × Node}
    (hentry : entry ∈ node.children) : entry.2.kind.isComment = entry.1.holdsComments := by
  have hfields : ∀ kind ∈ Kind.all, ∀ field ∈ kind.fields, ∀ k ∈ Kind.all,
      field.content.accepts k = true → k.isComment = field.slot.holdsComments := by
    decide +kernel
  obtain ⟨field, hfield, hslot, haccepts⟩ := h.exists_field hentry
  rw [← hslot]
  exact hfields _ node.kind.mem_all field hfield _ entry.2.kind.mem_all haccepts

end Node

end GraphQLTree
