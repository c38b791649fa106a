import GraphQLTree.Proofs.Grammar.Entries

/-!
# The slots of items

Every item of a rule fills slots of its own, which are fields of the rule's kind
(`Production.isOrderly`), so the children of a node in the slots of an item are those that the
elements of the item give (`Node.entriesIn_arrange`, `SpellItems.entriesIn_left`,
`SpellItems.entriesIn_right`). The slot for comments is the only one that several items share.
-/

namespace GraphQLTree

/-- The slots that a part fills, other than the one for the comments around the node. -/
def Part.slots : Part → List Slot
  | bracket _ slot => [slot]
  | name slot _ => [slot]
  | spacedName slot => [slot]
  | part => part.asks.map Prod.fst

/-- The slots that an item fills. -/
def Item.slots (item : Item) : List Slot :=
  item.parts.flatMap Part.slots

/-- The slots that items fill. -/
def slotsOfItems (items : List Item) : List Slot :=
  items.flatMap Item.slots

/-- The slots that a gift fills. -/
def Gift.slots : Gift → List Slot
  | name slot _ => [slot]
  | _ => []

/-- The slots that a shape fills. -/
def Shape.filled : Shape → List Slot
  | space _ => []
  | own slot _ _ gift => slot :: gift.slots
  | child slot _ => [slot]

theorem Part.Makes.filled {part : Part} {shape : Shape} (h : part.Makes shape) :
    shape.filled ⊆ .comments :: part.slots := by
  cases shape with
  | space piece => simp [Shape.filled]
  | own slot token spare gift =>
    obtain ⟨-, rfl, -, hname, -⟩ := h
    intro slot hslot
    rcases List.mem_cons.1 hslot with rfl | hslot
    · cases part <;> simp [commentSlot, slots]
    · cases gift with
      | name slot' text =>
        obtain rfl := List.mem_singleton.1 hslot
        have hslot := hname slot text rfl
        cases part with
        | name slot' rule =>
          obtain rfl := Option.some.inj hslot
          simp [slots]
        | spacedName slot' =>
          obtain rfl := Option.some.inj hslot
          simp [slots]
        | _ => cases hslot
      | _ => cases hslot
  | child slot goal =>
    have hslot : slot ∈ part.slots := by
      have hmem : slot ∈ part.asks.map Prod.fst := List.mem_map_of_mem h
      cases part <;> first | exact hmem | cases hmem
    simpa [Shape.filled] using .inr hslot

/-- What some parts make fills their slots only. -/
theorem Part.filled_of_makes {parts : List Part} {shape : Shape} (h : ∃ part ∈ parts, part.Makes shape) :
    shape.filled ⊆ .comments :: parts.flatMap Part.slots := by
  obtain ⟨part, hpart, hmakes⟩ := h
  exact List.Subset.trans hmakes.filled
    (List.cons_subset_cons _ fun slot hslot => List.mem_flatMap.2 ⟨part, hpart, hslot⟩)

/-- What a part spells fills its slots only. -/
theorem Part.Spells.filled {part : Part} {shapes : List Shape} (h : part.Spells shapes) :
    ∀ shape ∈ shapes, shape.filled ⊆ .comments :: part.slots :=
  fun shape hmem => (h.makes shape hmem).filled

theorem SpellParts.filled {parts : List Part} {shapes : List Shape} (h : SpellParts parts shapes) :
    ∀ shape ∈ shapes, shape.filled ⊆ .comments :: parts.flatMap Part.slots :=
  fun shape hmem => Part.filled_of_makes (h.makes shape hmem)

theorem Item.Spells.filled {item : Item} {shapes : List Shape} (h : item.Spells shapes) :
    ∀ shape ∈ shapes, shape.filled ⊆ .comments :: item.slots :=
  fun shape hmem => Part.filled_of_makes (h.makes shape hmem)

/-- What items spell fills their slots only. -/
theorem SpellItems.filled {items : List Item} {shapes : List Shape} (h : SpellItems items shapes) :
    ∀ shape ∈ shapes, shape.filled ⊆ .comments :: slotsOfItems items := by
  intro shape hmem
  have hfilled := Part.filled_of_makes (h.makes shape hmem)
  rwa [List.flatMap_assoc] at hfilled

/-- Children other than comments stand in slots that are not for comments. -/
theorem Shape.IsTidy.slot? {shape : Shape} (h : shape.IsTidy) {slot : Slot}
    (hslot : shape.slot? = some slot) : slot.holdsComments = false := by
  cases shape with
  | space piece => cases hslot
  | own slot' token spare gift =>
    cases gift with
    | name slot'' text =>
      obtain rfl := Option.some.inj hslot
      exact h.2 _ (List.mem_singleton_self _)
    | _ => cases hslot
  | child slot' goal =>
    obtain rfl := Option.some.inj hslot
    exact h

/-- The children that items give other than comments stand in their slots. -/
theorem SpellItems.slots_subset {items : List Item} {shapes : List Shape}
    (h : SpellItems items shapes) (hitems : ∀ item ∈ items, item.isReadable = true) :
    Shape.slots shapes ⊆ slotsOfItems items := by
  intro slot hslot
  obtain ⟨shape, hshape, hslot?⟩ := List.mem_filterMap.1 hslot
  have htidy := h.isTidy hitems shape hshape
  have hne : slot ≠ .comments := by
    rintro rfl
    cases htidy.slot? hslot?
  have hfilled : slot ∈ shape.filled := by
    cases shape with
    | space piece => cases hslot?
    | own slot' token spare gift =>
      cases gift with
      | name slot'' text =>
        obtain rfl := Option.some.inj hslot?
        simp [Shape.filled, Gift.slots]
      | _ => cases hslot?
    | child slot' goal =>
      obtain rfl := Option.some.inj hslot?
      simp [Shape.filled]
  exact (List.mem_cons.1 (h.filled shape hshape hfilled)).resolve_left hne

/-! ### Entries of items -/

namespace Elements

/-- Elements give nothing to the slots that they don't fill. -/
theorem entriesIn_eq_nil {elements : List Element} {slot : Slot}
    (h : ∀ shape ∈ shapes elements, slot ∉ shape.filled) :
    entriesIn slot (entries elements) = [] := by
  induction elements with
  | nil => rfl
  | cons element elements ih =>
    rw [entries_cons, entriesIn_append, ih fun shape hs => h shape (List.mem_cons_of_mem _ hs),
      List.append_nil]
    have hhead := h element.shape List.mem_cons_self
    cases element with
    | space piece => rfl
    | own slot' word spare gift =>
      have hne : slot' ≠ slot := fun he => hhead (by simp [Shape.filled, he])
      rw [Element.entries, entriesIn_append, entriesIn_ofComments_of_ne hne, List.nil_append]
      cases gift with
      | name slot'' text =>
        have hne : slot'' ≠ slot := fun he => hhead (by simp [Shape.filled, Gift.slots, he])
        simp [entriesIn, hne]
      | _ => rfl
    | child slot' goal c =>
      have hne : slot' ≠ slot := fun he => hhead (by simp [Shape.filled, he])
      simp [entriesIn, hne]

end Elements

section Sides

variable {slots : List Slot} {a b : List Element} {slot : Slot}
  (hcomments : slot ≠ .comments) (hslot : slot ∉ slots)
include hcomments hslot

/-- Elements that fill other slots give nothing. -/
theorem Elements.entriesIn_of_filled {elements : List Element}
    (h : ∀ shape ∈ shapes elements, shape.filled ⊆ .comments :: slots) :
    entriesIn slot (entries elements) = [] :=
  entriesIn_eq_nil fun shape hs hmem =>
    (List.mem_cons.1 (h shape hs hmem)).elim hcomments hslot

/-- The children in a slot are those in front of elements that fill other slots. -/
theorem Elements.entriesIn_left (hb : ∀ shape ∈ shapes b, shape.filled ⊆ .comments :: slots) :
    entriesIn slot (entries (a ++ b)) = entriesIn slot (entries a) := by
  rw [entries_append, entriesIn_append, entriesIn_of_filled hcomments hslot hb, List.append_nil]

/-- The children in a slot are those behind elements that fill other slots. -/
theorem Elements.entriesIn_right (ha : ∀ shape ∈ shapes a, shape.filled ⊆ .comments :: slots) :
    entriesIn slot (entries (a ++ b)) = entriesIn slot (entries b) := by
  rw [entries_append, entriesIn_append, entriesIn_of_filled hcomments hslot ha, List.nil_append]

end Sides

/-! ### Fields -/

/-- The slots of a kind's fields. -/
def Kind.slots (kind : Kind) : List Slot :=
  kind.fields.map Field.slot

theorem Kind.nodup_slots (kind : Kind) : kind.slots.Nodup :=
  of_decide_eq_true <| List.all_eq_true.1
    (show Kind.all.all (fun kind => kind.slots.Nodup) = true by decide) kind kind.mem_all

/-- Arranged children stand slot by slot. -/
theorem Node.arrange_eq_flatMap (kind : Kind) (entries : List (Slot × Node)) :
    arrange kind entries =
      kind.slots.flatMap fun slot => entries.filter fun entry => entry.1 = slot := by
  rw [arrange, Kind.slots, List.flatMap_map]

/-- What is arranged by the fields of a kind is in each of its slots what it was before. -/
theorem Node.entriesIn_arrange {kind : Kind} {slot : Slot} (h : slot ∈ kind.slots)
    (entries : List (Slot × Node)) :
    entriesIn slot (Node.arrange kind entries) = entriesIn slot entries := by
  have hfilter (fields : List Field) (hnodup : (fields.map Field.slot).Nodup) :
      entriesIn slot (fields.flatMap fun field => entriesIn field.slot entries) =
        if slot ∈ fields.map Field.slot then entriesIn slot entries else [] := by
    induction fields with
    | nil => rfl
    | cons field fields ih =>
      rw [List.map_cons, List.nodup_cons] at hnodup
      rw [List.flatMap_cons, entriesIn_append, ih hnodup.2, List.map_cons]
      by_cases hs : field.slot = slot
      · subst hs
        rw [if_neg hnodup.1, if_pos List.mem_cons_self, List.append_nil]
        exact List.filter_eq_self.2 fun entry he => (List.mem_filter.1 he).2
      · have hnil : entriesIn slot (entriesIn field.slot entries) = [] := by
          refine List.filter_eq_nil_iff.2 fun entry he => ?_
          have := of_decide_eq_true (List.mem_filter.1 he).2
          simpa [this] using hs
        simp [hnil, Ne.symm hs]
  exact (hfilter kind.fields kind.nodup_slots).trans (if_pos h)

/-- Arranging adds no children. -/
theorem Node.arrange_subset (kind : Kind) (entries : List (Slot × Node)) :
    Node.arrange kind entries ⊆ entries := by
  intro entry h
  obtain ⟨field, -, hmem⟩ := List.mem_flatMap.1 h
  exact (List.mem_filter.1 hmem).1

/-- Arranged children stand in the slots of the kind's fields. -/
theorem Node.mem_slots_of_arrange {kind : Kind} {entries : List (Slot × Node)} {entry : Slot × Node}
    (h : entry ∈ Node.arrange kind entries) : entry.1 ∈ kind.slots := by
  obtain ⟨field, hfield, hmem⟩ := List.mem_flatMap.1 h
  rw [of_decide_eq_true (List.mem_filter.1 hmem).2]
  exact List.mem_map_of_mem hfield

/-! ### Atoms -/

namespace Shape

/-- The atoms that shapes give. -/
def atoms : List Shape → List Atom
  | [] => []
  | own _ _ _ (.atom a) :: shapes => a :: atoms shapes
  | _ :: shapes => atoms shapes

theorem atoms_append (a b : List Shape) : atoms (a ++ b) = atoms a ++ atoms b := by
  induction a with
  | nil => rfl
  | cons shape a ih =>
    cases shape with
    | own slot token spare gift => cases gift <;> simp [atoms, ih]
    | _ => simp [atoms, ih]

/-- The atom of a node is the last that its shapes give. -/
theorem atom?_eq (shapes : List Shape) : atom? shapes = (atoms shapes).getLast? := by
  induction shapes with
  | nil => rfl
  | cons shape shapes ih =>
    cases shape with
    | own slot token spare gift =>
      cases gift with
      | atom a =>
        rw [atom?, atoms, ih, List.getLast?_cons]
        cases (atoms shapes).getLast? <;> rfl
      | _ => exact ih
    | _ => exact ih

theorem exists_of_mem_atoms {shapes : List Shape} {a : Atom} (h : a ∈ atoms shapes) :
    ∃ slot token spare, own slot token spare (.atom a) ∈ shapes := by
  induction shapes with
  | nil => cases h
  | cons shape shapes ih =>
    cases shape with
    | own slot token spare gift =>
      cases gift with
      | atom a' =>
        rcases List.mem_cons.1 h with rfl | h
        · exact ⟨_, _, _, List.mem_cons_self⟩
        · obtain ⟨slot', token', spare', hmem⟩ := ih h
          exact ⟨slot', token', spare', List.mem_cons_of_mem _ hmem⟩
      | _ =>
        obtain ⟨slot', token', spare', hmem⟩ := ih h
        exact ⟨slot', token', spare', List.mem_cons_of_mem _ hmem⟩
    | _ =>
      obtain ⟨slot', token', spare', hmem⟩ := ih h
      exact ⟨slot', token', spare', List.mem_cons_of_mem _ hmem⟩

theorem mem_atoms {shapes : List Shape} {slot : Slot} {token : Token} {spare : Bool} {a : Atom}
    (h : own slot token spare (.atom a) ∈ shapes) : a ∈ atoms shapes := by
  obtain ⟨before, after, rfl⟩ := List.append_of_mem h
  rw [atoms_append]
  exact List.mem_append_right _ List.mem_cons_self

end Shape

/-- What parts without atoms make has no atoms. -/
theorem Shape.atoms_eq_nil {shapes : List Shape} {parts : List Part}
    (h : ∀ shape ∈ shapes, ∃ part ∈ parts, part.Makes shape)
    (hparts : parts.any Part.hasAtom = false) : atoms shapes = [] := by
  refine List.eq_nil_iff_forall_not_mem.2 fun a ha => ?_
  obtain ⟨slot, token, spare, hmem⟩ := exists_of_mem_atoms ha
  obtain ⟨part, hpart, -, -, -, -, hatom⟩ := h _ hmem
  have htrue : parts.any Part.hasAtom = true := List.any_eq_true.2 ⟨part, hpart, hatom a rfl⟩
  rw [hparts] at htrue
  cases htrue

/-- Whether at most one of some parts gives an atom. -/
def SingleAtom (parts : List Part) : Prop :=
  parts.Pairwise fun p q => (p.hasAtom && q.hasAtom) = false

instance (parts : List Part) : Decidable (SingleAtom parts) :=
  inferInstanceAs (Decidable (parts.Pairwise _))

theorem SingleAtom.cons {part : Part} {parts : List Part} (h : SingleAtom (part :: parts)) :
    part.hasAtom = false ∨ parts.any Part.hasAtom = false := by
  cases hpart : part.hasAtom with
  | false => exact .inl rfl
  | true =>
    refine .inr (List.any_eq_false.2 fun q hq hatom => ?_)
    have hboth := (List.pairwise_cons.1 h).1 q hq
    rw [hpart, hatom] at hboth
    cases hboth

theorem Part.Spells.atoms_eq_nil {part : Part} {shapes : List Shape} (h : part.Spells shapes)
    (hpart : part.hasAtom = false) : Shape.atoms shapes = [] :=
  Shape.atoms_eq_nil (fun shape hmem => ⟨part, List.mem_singleton_self _, h.makes shape hmem⟩)
    (by simpa using hpart)

theorem SpellParts.length_atoms {parts : List Part} {shapes : List Shape}
    (h : SpellParts parts shapes) (hsingle : SingleAtom parts) :
    (Shape.atoms shapes).length ≤ 1 := by
  induction h with
  | nil => exact Nat.zero_le _
  | @cons part parts a b ha hb ih =>
    rw [Shape.atoms_append]
    rcases hsingle.cons with hnone | hnone
    · rw [ha.atoms_eq_nil hnone]
      exact ih (List.pairwise_cons.1 hsingle).2
    · rw [Shape.atoms_eq_nil hb.makes hnone, List.append_nil]
      cases hpart : part.hasAtom with
      | false =>
        rw [ha.atoms_eq_nil hpart]
        exact Nat.zero_le _
      | true =>
        cases ha with
        | literal l token atom h => exact Nat.le_refl _
        | _ => cases hpart

/-- Items with a single atom spell one atom at most. -/
theorem SpellItems.length_atoms {items : List Item} {shapes : List Shape}
    (h : SpellItems items shapes) (hsingle : SingleAtom (items.flatMap Item.parts)) :
    (Shape.atoms shapes).length ≤ 1 := by
  obtain ⟨parts, hsub, hparts⟩ := h.exists_parts
  exact hparts.length_atoms (List.Pairwise.sublist hsub hsingle)

/-! ### Groups -/

/-- The slot that a part always gives a child to, if there is one. -/
def Part.gives? : Part → Option Slot
  | name slot _ => some slot
  | spacedName slot => some slot
  | child slot _ => some slot
  | opened _ slot _ => some slot
  | separated slot _ _ => some slot
  | _ => none

theorem Part.Spells.gives {part : Part} {shapes : List Shape} (h : part.Spells shapes) {slot : Slot}
    (hgives : part.gives? = some slot) : slot ∈ Shape.slots shapes := by
  cases h <;> simp only [gives?, Option.some.injEq, reduceCtorEq] at hgives <;> subst hgives <;>
    simp [Shape.slots, Shape.slot?, Shape.separated, Shape.spare]

theorem Part.mem_slots_of_gives {part : Part} {slot : Slot} (h : part.gives? = some slot) :
    slot ∈ part.slots := by
  cases part <;> simp only [gives?, Option.some.injEq, reduceCtorEq] at h <;> subst h <;>
    simp [slots, asks]

theorem SpellParts.exists_of_mem {parts : List Part} {shapes : List Shape}
    (h : SpellParts parts shapes) {part : Part} (hpart : part ∈ parts) :
    ∃ a, part.Spells a ∧ a ⊆ shapes := by
  induction h with
  | nil => cases hpart
  | cons ha hb ih =>
    rcases List.mem_cons.1 hpart with rfl | hpart
    · exact ⟨_, ha, List.subset_append_left _ _⟩
    · obtain ⟨a, hspells, hsub⟩ := ih hpart
      exact ⟨a, hspells, List.subset_append_of_subset_right _ hsub⟩

/-- Whether a group gives the node what a printer decides about it by. -/
def Item.isDecided : Item → Bool
  | part _ => true
  | group _ (.filled slot) parts => parts.any fun part => part.gives? = some slot
  | group _ .repeatable parts => parts.contains (.literal .repeatable)

/-- Whether a group gives the node an atom if a printer decides about it by the atom. -/
theorem Item.hasAtom_of_repeatable {guard : Guard} {parts : List Part}
    (h : (Item.group guard .repeatable parts).isDecided = true) :
    parts.any Part.hasAtom = true :=
  List.any_eq_true.2 ⟨.literal .repeatable, List.contains_iff_mem.1 h, rfl⟩

/-! ### Comments around nodes -/

/-- Whether the comments of all own tokens of a part stand around the node. -/
def Part.isOpen (part : Part) : Bool :=
  part.commentSlot = .comments

/-- Whether no comments of own tokens of a part stand around the node. -/
def Part.isShut (part : Part) : Bool :=
  !part.hasOwn || part.commentSlot ≠ .comments

/-- The comments of all own tokens that open parts make stand around the node. -/
theorem Part.Makes.eq_comments {part : Part} (hpart : part.isOpen = true) {slot : Slot}
    {token : Token} {spare : Bool} {gift : Gift} (h : part.Makes (.own slot token spare gift)) :
    slot = .comments :=
  h.2.1.trans (of_decide_eq_true hpart)

/-- There are no comments around what shut parts make. -/
theorem Elements.comments_eq_nil {elements : List Element} {parts : List Part}
    (h : ∀ shape ∈ shapes elements, ∃ part ∈ parts, part.Makes shape)
    (hparts : parts.all Part.isShut = true) : comments elements = [] := by
  refine List.flatMap_eq_nil_iff.2 fun element he => ?_
  obtain ⟨part, hpart, hmakes⟩ := h _ (List.mem_map_of_mem he)
  cases element with
  | own slot word spare gift =>
    have hshut := List.all_eq_true.1 hparts part hpart
    obtain ⟨hown, hslot, -⟩ := hmakes
    have hne : slot ≠ .comments := by simpa [Part.isShut, hown, ← hslot] using hshut
    cases slot <;> first | rfl | exact absurd rfl hne
  | _ => rfl

/-! ### Items of productions -/

namespace Production

/-- What holds of the items of every rule that a reader goes by. -/
structure IsOrderly (p : Production) : Prop where
  /-- No slot is filled by two items. -/
  nodup_slots : (slotsOfItems p.rule.items).Nodup
  /-- The slots of items are those of the kind. -/
  slots_subset : slotsOfItems p.rule.items ⊆ p.kind.slots
  /-- Items fill neither the slot for comments nor the one for a description. -/
  not_mem_slots : .comments ∉ slotsOfItems p.rule.items ∧ .description ∉ slotsOfItems p.rule.items
  /-- A rule has no comments around its nodes, or its kind has a slot for them and no brackets. -/
  isOpen_or_isShut :
    .comments ∈ p.kind.slots ∧ (p.rule.items.flatMap Item.parts).all Part.isOpen = true ∨
      (p.rule.items.flatMap Item.parts).all Part.isShut = true
  /-- The groups of a rule give what a printer decides about them by. -/
  isDecided : ∀ item ∈ p.rule.items, item.isDecided = true
  /-- At most one part of a rule gives an atom. -/
  singleAtom : SingleAtom (p.rule.items.flatMap Item.parts)

instance (p : Production) : Decidable p.IsOrderly :=
  decidable_of_iff
    ((slotsOfItems p.rule.items).Nodup ∧ (∀ slot ∈ slotsOfItems p.rule.items, slot ∈ p.kind.slots) ∧
      (.comments ∉ slotsOfItems p.rule.items ∧ .description ∉ slotsOfItems p.rule.items) ∧
      (.comments ∈ p.kind.slots ∧ (p.rule.items.flatMap Item.parts).all Part.isOpen = true ∨
        (p.rule.items.flatMap Item.parts).all Part.isShut = true) ∧
      (∀ item ∈ p.rule.items, item.isDecided = true) ∧
      SingleAtom (p.rule.items.flatMap Item.parts))
    ⟨fun ⟨hnodup, hsub, hmem, hopen, hdecided, hsingle⟩ =>
      ⟨hnodup, fun slot => hsub slot, hmem, hopen, hdecided, hsingle⟩,
    fun h => ⟨h.nodup_slots, fun _ hslot => h.slots_subset hslot, h.not_mem_slots, h.isOpen_or_isShut,
      h.isDecided, h.singleAtom⟩⟩

variable {p : Production}

theorem isOrderly (h : p.isReadable = true) : p.IsOrderly := by
  have hcheck := check (fun p => !p.isReadable || p.IsOrderly) (by decide) p
  simpa [h] using hcheck

theorem description_mem_slots (hdescribed : p.rule.described = true) :
    .description ∈ p.kind.slots := by
  have hcheck := check (fun p => !p.rule.described || .description ∈ p.kind.slots)
    (by decide) p
  simpa [hdescribed] using hcheck

end Production

end GraphQLTree
