import Mathlib.Data.List.Perm.Basic
import GraphQLTree.Proofs.Grammar.Slots

/-!
# Gathering what a tree holds

Everything that the nodes of a tree hold of some sort is **gathered** node by node, each before its
children (`Node.gather`). What is gathered from a node that is made of elements is what it holds itself
and what is gathered from their entries, up to the order (`Production.gather_finish`).
-/

namespace GraphQLTree

namespace Node

variable {α : Type}

mutual

/-- What the nodes of a tree hold. -/
def gather (f : Node → List α) : Node → List α
  | mk kind atom children => f (mk kind atom children) ++ gatherIn f children

/-- What some children and the nodes below them hold. -/
def gatherIn (f : Node → List α) : List (Slot × Node) → List α
  | [] => []
  | (_, child) :: rest => gather f child ++ gatherIn f rest

end

theorem gatherIn_eq (f : Node → List α) (children : List (Slot × Node)) :
    gatherIn f children = children.flatMap fun entry => entry.2.gather f := by
  induction children with
  | nil => rfl
  | cons entry rest ih =>
    obtain ⟨slot, child⟩ := entry
    rw [gatherIn, ih]
    rfl

theorem gather_mk (f : Node → List α) (kind : Kind) (atom : Atom) (children : List (Slot × Node)) :
    gather f (mk kind atom children) =
      f (mk kind atom children) ++ children.flatMap fun entry => entry.2.gather f := by
  rw [gather, gatherIn_eq]

private theorem filter_cons_perm {slot : Slot} {slots : List Slot} (h : slot ∉ slots)
    (entries : List (Slot × Node)) :
    (entries.filter fun entry => entry.1 ∈ slot :: slots).Perm
      ((entries.filter fun entry => entry.1 = slot) ++
        entries.filter fun entry => entry.1 ∈ slots) := by
  induction entries with
  | nil => exact .nil
  | cons entry entries ih =>
    by_cases hslot : entry.1 = slot
    · have hnot : entry.1 ∉ slots := hslot ▸ h
      simpa [hslot, hnot, h] using ih
    · by_cases hslots : entry.1 ∈ slots
      · simp only [List.filter_cons, List.mem_cons, hslot, hslots, or_true, decide_true, if_true,
          decide_false, Bool.false_eq_true, if_false]
        simp only [List.mem_cons] at ih
        exact (ih.cons entry).trans List.perm_middle.symm
      · simpa [hslot, hslots] using ih

/-- Arranging children that all have slots changes nothing but their order. -/
theorem arrange_perm {kind : Kind} {entries : List (Slot × Node)}
    (h : ∀ entry ∈ entries, entry.1 ∈ kind.slots) : (arrange kind entries).Perm entries := by
  have hslots (slots : List Slot) (hnodup : slots.Nodup) :
      (slots.flatMap fun slot => entries.filter fun entry => entry.1 = slot).Perm
        (entries.filter fun entry => entry.1 ∈ slots) := by
    induction slots with
    | nil => simp
    | cons slot slots ih =>
      obtain ⟨hslot, hnodup⟩ := List.nodup_cons.1 hnodup
      exact ((ih hnodup).append_left _).trans (filter_cons_perm hslot entries).symm
  rw [arrange_eq_flatMap]
  refine (hslots kind.slots kind.nodup_slots).trans (List.Perm.of_eq ?_)
  exact List.filter_eq_self.2 fun entry hentry => decide_eq_true (h entry hentry)

/-- Children that all have slots, and stand in the order of the slots, are arranged. -/
theorem arrange_eq_self {kind : Kind} {entries : List (Slot × Node)}
    (h : ∀ entry ∈ entries, entry.1 ∈ kind.slots)
    (horder : entries.Pairwise fun a b => kind.slots.idxOf a.1 ≤ kind.slots.idxOf b.1) :
    arrange kind entries = entries := by
  rw [arrange_eq_flatMap]
  have hnodup := kind.nodup_slots
  generalize kind.slots = slots at *
  induction entries with
  | nil => simp
  | cons entry entries ih =>
    obtain ⟨hentry, hentries⟩ := List.forall_mem_cons.1 h
    obtain ⟨hfirst, hrest⟩ := List.pairwise_cons.1 horder
    obtain ⟨before, after, rfl⟩ := List.append_of_mem hentry
    have hbefore : entry.1 ∉ before := fun hmem =>
      (List.nodup_append.1 hnodup).2.2 _ hmem _ List.mem_cons_self rfl
    have hafter : entry.1 ∉ after := (List.nodup_cons.1 (List.nodup_append.1 hnodup).2.1).1
    -- No child is in front of the first one, so nothing stands in the slots before its slot.
    have hnone : (before.flatMap fun slot => entries.filter fun e => e.1 = slot) = [] := by
      refine List.flatMap_eq_nil_iff.2 fun slot hslot => List.filter_eq_nil_iff.2 fun e he heq => ?_
      have hle := hfirst e he
      rw [of_decide_eq_true heq, List.idxOf_append_of_notMem hbefore, List.idxOf_cons_self,
        List.idxOf_append_of_mem hslot] at hle
      exact absurd (List.idxOf_lt_length_iff.2 hslot) (by omega)
    have hskip {slots : List Slot} (hslot : entry.1 ∉ slots) :
        (slots.flatMap fun slot => (entry :: entries).filter fun e => e.1 = slot) =
          slots.flatMap fun slot => entries.filter fun e => e.1 = slot := by
      refine List.flatMap_congr fun slot hmem => List.filter_cons_of_neg ?_
      rintro heq
      exact hslot (of_decide_eq_true heq ▸ hmem)
    have ih := ih hentries hrest
    rw [List.flatMap_append, List.flatMap_cons, hnone, List.nil_append] at ih
    rw [List.flatMap_append, List.flatMap_cons, hskip hbefore, hskip hafter, hnone,
      List.nil_append, List.filter_cons_of_pos (by simp), List.cons_append, ih]

end Node

/-- The children that elements give have slots. -/
theorem Production.mem_slots_of_entries {p : Production} (hp : p.isReadable = true)
    {description : Option Child} {elements : List Element}
    (hdescribed : description.isSome = true → p.rule.described = true)
    (hspells : SpellItems p.rule.items (Elements.shapes elements)) :
    ∀ entry ∈ Elements.entries (descriptionElements description ++ elements),
      entry.1 ∈ p.kind.slots := by
  have hslots {slot : Slot} (h : slot ∈ Shape.slots (Elements.shapes elements)) :
      slot ∈ p.kind.slots :=
    (isOrderly hp).slots_subset (hspells.slots_subset (items_isReadable hp).2 h)
  intro entry hentry
  rw [Elements.entries_append] at hentry
  rcases List.mem_append.1 hentry with hentry | hentry
  · cases description with
    | none => cases hentry
    | some c =>
      obtain rfl : entry = (.description, c.node) := by simpa [descriptionElements] using hentry
      exact description_mem_slots (hdescribed rfl)
  · rcases Elements.mem_entries hentry with ⟨slot, word, spare, gift, hmem, comment, -, rfl⟩ |
      ⟨slot, word, spare, named, text, hmem, rfl⟩ | ⟨slot, goal, c, hmem, rfl⟩
    · have hshape := List.mem_map_of_mem (f := Element.shape) hmem
      rcases List.mem_cons.1 (hspells.filled _ hshape List.mem_cons_self) with hcomments | hslot
      · obtain rfl : slot = .comments := hcomments
        rcases (isOrderly hp).isOpen_or_isShut with ⟨hslot, -⟩ | hshut
        · exact hslot
        · -- Without comments around its nodes, a rule has no own tokens that could have any.
          obtain ⟨part, hpart, hown, hslot, -⟩ := hspells.makes _ hshape
          have hpart := List.all_eq_true.1 hshut part hpart
          simp [Part.isShut, hown, ← hslot] at hpart
      · exact (isOrderly hp).slots_subset hslot
    · exact hslots (List.mem_filterMap.2 ⟨_, List.mem_map_of_mem hmem, rfl⟩)
    · exact hslots (List.mem_filterMap.2 ⟨_, List.mem_map_of_mem hmem, rfl⟩)

/-- What is gathered from a node that is made of elements. -/
theorem Production.gather_finish {p : Production} (hp : p.isReadable = true)
    {description : Option Child} {elements : List Element}
    (hdescribed : description.isSome = true → p.rule.described = true)
    (hspells : SpellItems p.rule.items (Elements.shapes elements)) {α : Type} (f : Node → List α) :
    ((p.finish (descriptionElements description ++ elements)).gather f).Perm
      (f (p.finish (descriptionElements description ++ elements)) ++
        (Elements.entries (descriptionElements description ++ elements)).flatMap
          fun entry => entry.2.gather f) := by
  rw [finish, Node.gather_mk]
  refine List.Perm.append_left _ (List.Perm.flatMap_right _ ?_)
  exact Node.arrange_perm (mem_slots_of_entries hp hdescribed hspells)

end GraphQLTree
