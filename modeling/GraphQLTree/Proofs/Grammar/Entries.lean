import GraphQLTree.Proofs.Grammar.Derivation

/-!
# The children that elements give

The children of a node are arranged by their slots, so what counts about the **entries** of elements is
which ones stand in each slot (`entriesIn`). Every shape that items spell is made by one of their parts
(`SpellItems.makes`). Own tokens are **tidy**: their comments go to slots for comments and what else they
give goes to other slots.
-/

namespace GraphQLTree

/-! ### Slots -/

/-- The children in a slot, in order. -/
def entriesIn (slot : Slot) (entries : List (Slot × Node)) : List (Slot × Node) :=
  entries.filter fun entry => entry.1 = slot

theorem entriesIn_append (slot : Slot) (a b : List (Slot × Node)) :
    entriesIn slot (a ++ b) = entriesIn slot a ++ entriesIn slot b :=
  List.filter_append ..

/-- Children that all stand in one slot. -/
theorem entriesIn_map {α : Type} (s slot : Slot) (f : α → Node) (as : List α) :
    entriesIn s (as.map fun a => (slot, f a)) =
      if slot = s then as.map fun a => (slot, f a) else [] := by
  split
  · next h => exact List.filter_eq_self.2 (by simp [h])
  · next h => exact List.filter_eq_nil_iff.2 (by simp [h])

theorem entriesIn_ofComments (slot : Slot) (comments : List Comment) :
    entriesIn slot (Node.ofComments slot comments) = Node.ofComments slot comments := by
  simp only [Node.ofComments, entriesIn_map, if_pos]

theorem entriesIn_ofComments_of_ne {slot slot' : Slot} (h : slot' ≠ slot)
    (comments : List Comment) : entriesIn slot (Node.ofComments slot' comments) = [] := by
  simp only [Node.ofComments, entriesIn_map, if_neg h]

/-- The comments between children may as well stand behind them. -/
theorem entriesIn_separated {slot : Slot} (hslot : slot.holdsComments = false) (s : Slot)
    (others : List (Word × Child)) :
    entriesIn s (others.flatMap fun next =>
        Node.ofComments .comments next.1.comments ++ [(slot, next.2.node)]) =
      entriesIn s (others.map fun next => (slot, next.2.node)) ++
        entriesIn s (Node.ofComments .comments (others.flatMap (·.1.comments))) := by
  have hne : slot ≠ .comments := by
    rintro rfl
    cases hslot
  induction others with
  | nil => rfl
  | cons next others ih =>
    have hone : entriesIn s [(slot, next.2.node)] = if slot = s then [(slot, next.2.node)] else [] :=
      entriesIn_map s slot id [next.2.node]
    rw [List.flatMap_cons, entriesIn_append, entriesIn_append, ih, hone]
    simp only [Node.ofComments, entriesIn_map]
    by_cases hs : slot = s
    · subst hs
      simp [hne.symm]
    · by_cases hs' : Slot.comments = s <;> simp [hs, hs']

/-- The children of a node are arranged slot by slot. -/
theorem Node.arrange_congr (kind : Kind) {a b : List (Slot × Node)}
    (h : ∀ slot, entriesIn slot a = entriesIn slot b) :
    Node.arrange kind a = Node.arrange kind b := by
  unfold Node.arrange
  exact congrArg (fun f => List.flatMap f kind.fields) (funext fun field => h field.slot)

/-! ### What parts make -/

/-- The slot for the comments of a part's own tokens. -/
def Part.commentSlot : Part → Slot
  | bracket _ slot => slot
  | _ => .comments

/-- Whether a part has own tokens. -/
def Part.hasOwn : Part → Bool
  | punct _ => true
  | bracket _ _ => true
  | keyword _ => true
  | name _ _ => true
  | spacedName _ => true
  | literal _ => true
  | separated _ _ _ => true
  | _ => false

/-- The slot for the name that a part is, if it is one. -/
def Part.nameSlot? : Part → Option Slot
  | name slot _ => some slot
  | spacedName slot => some slot
  | _ => none

/-- Whether a part gives the node its atom. -/
def Part.hasAtom : Part → Bool
  | literal _ => true
  | _ => false

/-- Whether a shape may be one of those that a part spells. -/
def Part.Makes (part : Part) : Shape → Prop
  | .space piece => piece ∈ [.soft, .hard, .comma]
  | .own slot _ spare gift =>
    part.hasOwn = true ∧ slot = part.commentSlot ∧ (spare = true → gift = .nothing) ∧
      (∀ named text, gift = .name named text → part.nameSlot? = some named) ∧
      ∀ atom, gift = .atom atom → part.hasAtom = true
  | .child slot goal => (slot, goal) ∈ part.asks

theorem Shape.forall_times {P : Shape → Prop} {step : List Shape} (h : ∀ shape ∈ step, P shape)
    (n : Nat) : ∀ shape ∈ times step n, P shape := by
  induction n with
  | zero => simp [times]
  | succ n ih => exact fun shape hmem => (List.mem_append.1 hmem).elim (h shape) (ih shape)

private theorem makes_listed {part : Part} {slot : Slot} {goal : Goal}
    (h : (slot, goal) ∈ part.asks) (padded : Bool) (n : Nat) :
    ∀ shape ∈ Shape.listed slot goal padded n, part.Makes shape := by
  cases n with
  | zero => simp [Shape.listed]
  | succ n =>
    have htimes : ∀ shape ∈ Shape.times [.space .comma, .child slot goal] n, part.Makes shape :=
      Shape.forall_times (by simp [Part.Makes, h]) n
    intro shape hmem
    simp only [Shape.listed, List.mem_append, List.mem_cons] at hmem
    have hpadding (hmem : shape ∈ if padded = true then [Shape.space .soft] else []) :
        part.Makes shape := by
      cases padded with
      | true => simp_all [Part.Makes]
      | false => cases hmem
    rcases hmem with (hmem | rfl | hmem) | hmem
    · exact hpadding hmem
    · exact h
    · exact htimes shape hmem
    · exact hpadding hmem

private theorem makes_separated (slot : Slot) (goal : Goal) (delimiter : Punctuator) (n : Nat) :
    ∀ shape ∈ Shape.separated slot goal delimiter n,
      (Part.separated slot goal delimiter).Makes shape := by
  intro shape hmem
  rcases List.mem_cons.1 hmem with rfl | hmem
  · simp [Part.Makes, Part.asks]
  · refine Shape.forall_times (fun shape hmem => ?_) n shape hmem
    simp only [List.mem_cons, List.not_mem_nil, or_false] at hmem
    rcases hmem with rfl | rfl | rfl | rfl <;>
      simp [Part.Makes, Part.hasOwn, Part.commentSlot, Part.asks, Shape.plain]

/-- The shapes that a part spells are of few sorts. -/
theorem Part.Spells.makes {part : Part} {shapes : List Shape} (h : part.Spells shapes) :
    ∀ shape ∈ shapes, part.Makes shape := by
  cases h with
  | gap g => cases g <;> simp [Makes, Gap.piece]
  | listed slot goal close allowEmpty n h => exact makes_listed (List.mem_singleton_self _) _ n
  | repeated slot goal start n =>
    exact Shape.forall_times (by simp [Makes, asks]) n
  | separated slot goal delimiter n => exact makes_separated slot goal delimiter n
  | spared slot goal delimiter n =>
    intro shape hmem
    rcases List.mem_cons.1 hmem with rfl | hmem
    · simp [Makes, hasOwn, commentSlot, Shape.spare]
    · exact makes_separated slot goal delimiter n shape hmem
  | _ => simp [Makes, hasOwn, commentSlot, nameSlot?, hasAtom, asks, Shape.plain]

/-- The parts of an item. -/
def Item.parts : Item → List Part
  | part p => [p]
  | group _ _ parts => parts

theorem SpellParts.append {parts parts' : List Part} {a b : List Shape} (ha : SpellParts parts a)
    (hb : SpellParts parts' b) : SpellParts (parts ++ parts') (a ++ b) := by
  induction ha with
  | nil => exact hb
  | cons h _ ih =>
    rw [List.append_assoc]
    exact .cons h ih

/-- What items spell is what some of their parts spell. -/
theorem SpellItems.exists_parts {items : List Item} {shapes : List Shape}
    (h : SpellItems items shapes) :
    ∃ parts, parts.Sublist (items.flatMap Item.parts) ∧ SpellParts parts shapes := by
  induction h with
  | nil => exact ⟨[], List.Sublist.refl _, .nil⟩
  | @cons item items a b ha hb ih =>
    obtain ⟨parts, hsub, hparts⟩ := ih
    cases ha with
    | @part p _ h => exact ⟨p :: parts, hsub.cons_cons p, .cons h hparts⟩
    | skip guard presence parts' =>
      exact ⟨parts, hsub.trans (List.sublist_append_right _ _), hparts⟩
    | @take guard presence parts' _ h =>
      exact ⟨parts' ++ parts, (List.Sublist.refl _).append hsub, h.append hparts⟩

/-- Every shape that parts spell is spelled by one of them. -/
theorem SpellParts.exists_spells {parts : List Part} {shapes : List Shape}
    (h : SpellParts parts shapes) {shape : Shape} (hmem : shape ∈ shapes) :
    ∃ part ∈ parts, ∃ a, part.Spells a ∧ shape ∈ a := by
  induction h with
  | nil => cases hmem
  | cons ha hb ih =>
    rcases List.mem_append.1 hmem with hmem | hmem
    · exact ⟨_, List.mem_cons_self, _, ha, hmem⟩
    · obtain ⟨part, hpart, hspells⟩ := ih hmem
      exact ⟨part, List.mem_cons_of_mem _ hpart, hspells⟩

/-- Every shape that items spell is spelled by one of their parts. -/
theorem SpellItems.exists_spells {items : List Item} {shapes : List Shape}
    (h : SpellItems items shapes) {shape : Shape} (hmem : shape ∈ shapes) :
    ∃ part ∈ items.flatMap Item.parts, ∃ a, part.Spells a ∧ shape ∈ a := by
  obtain ⟨parts, hsub, hparts⟩ := h.exists_parts
  obtain ⟨part, hpart, hspells⟩ := hparts.exists_spells hmem
  exact ⟨part, hsub.subset hpart, hspells⟩

theorem SpellParts.makes {parts : List Part} {shapes : List Shape} (h : SpellParts parts shapes) :
    ∀ shape ∈ shapes, ∃ part ∈ parts, part.Makes shape := by
  intro shape hmem
  obtain ⟨part, hpart, a, ha, hmem⟩ := h.exists_spells hmem
  exact ⟨part, hpart, ha.makes shape hmem⟩

theorem Item.Spells.makes {item : Item} {shapes : List Shape} (h : item.Spells shapes) :
    ∀ shape ∈ shapes, ∃ part ∈ item.parts, part.Makes shape := by
  cases h with
  | part h => exact fun shape hmem => ⟨_, List.mem_singleton_self _, h.makes shape hmem⟩
  | skip guard presence parts => simp
  | take guard presence h => exact h.makes

/-- Every shape that items spell is made by one of their parts. -/
theorem SpellItems.makes {items : List Item} {shapes : List Shape} (h : SpellItems items shapes) :
    ∀ shape ∈ shapes, ∃ part ∈ items.flatMap Item.parts, part.Makes shape := by
  intro shape hmem
  obtain ⟨part, hpart, a, ha, hmem⟩ := h.exists_spells hmem
  exact ⟨part, hpart, ha.makes shape hmem⟩

/-! ### Counting shapes -/

/-- Parts spell at most as many shapes of a sort as there are parts that spell one of them. -/
theorem SpellParts.countP_le {parts : List Part} {shapes : List Shape} (h : SpellParts parts shapes)
    {f : Part → Bool} {q : Shape → Bool}
    (hparts : ∀ part ∈ parts, ∀ a, part.Spells a → a.countP q ≤ if f part = true then 1 else 0) :
    shapes.countP q ≤ parts.countP f := by
  induction h with
  | nil => exact Nat.zero_le _
  | cons ha hb ih =>
    obtain ⟨hpart, hparts⟩ := List.forall_mem_cons.1 hparts
    rw [List.countP_append, List.countP_cons, Nat.add_comm]
    exact Nat.add_le_add (ih hparts) (hpart _ ha)

/-- Items spell at most as many shapes of a sort as there are parts that spell one of them. -/
theorem SpellItems.countP_le {items : List Item} {shapes : List Shape} (h : SpellItems items shapes)
    {f : Part → Bool} {q : Shape → Bool}
    (hparts : ∀ part ∈ items.flatMap Item.parts, ∀ a, part.Spells a →
      a.countP q ≤ if f part = true then 1 else 0) :
    shapes.countP q ≤ (items.flatMap Item.parts).countP f := by
  obtain ⟨parts, hsub, hspells⟩ := h.exists_parts
  have hcount := hspells.countP_le fun part hpart => hparts part (hsub.subset hpart)
  exact Nat.le_trans hcount hsub.countP_le

/-! ### Tidy shapes -/

/-- Whether comments go to slots for comments, and nothing else does. -/
def Shape.IsTidy : Shape → Prop
  | space _ => True
  | own slot _ _ gift =>
    slot.holdsComments = true ∧ ∀ entry ∈ gift.entries, entry.1.holdsComments = false
  | child slot _ => slot.holdsComments = false

/-- What a part that can be read makes is tidy. -/
theorem Part.Makes.isTidy {part : Part} {shape : Shape} (h : part.Makes shape)
    (hpart : part.isReadable = true) : shape.IsTidy := by
  have htidy := (Bool.and_eq_true_iff.1 hpart).2
  cases shape with
  | space piece => trivial
  | own slot token spare gift =>
    obtain ⟨-, rfl, -, hname, -⟩ := h
    refine ⟨?_, fun entry he => ?_⟩
    · cases part with
      | bracket p slot => exact htidy
      | _ => rfl
    · cases gift with
      | name slot text =>
        obtain rfl := List.mem_singleton.1 he
        have hslot := hname slot text rfl
        cases part with
        | name slot' rule =>
          obtain rfl := Option.some.inj hslot
          simpa [hasTidySlot] using htidy
        | spacedName slot' =>
          obtain rfl := Option.some.inj hslot
          simpa [hasTidySlot] using htidy
        | _ => cases hslot
      | _ => cases he
  | child slot goal => exact (isReadable_of_asks hpart h).1

theorem Item.isReadable_of_mem {item : Item} (h : item.isReadable = true) {part : Part}
    (hpart : part ∈ item.parts) : part.isReadable = true := by
  cases item with
  | part p =>
    obtain rfl := List.mem_singleton.1 hpart
    exact h
  | group guard presence parts => exact List.all_eq_true.1 h part hpart

theorem Item.Spells.isTidy {item : Item} (hitem : item.isReadable = true) {shapes : List Shape}
    (h : item.Spells shapes) : ∀ shape ∈ shapes, shape.IsTidy := by
  intro shape hmem
  obtain ⟨part, hpart, hmakes⟩ := h.makes shape hmem
  exact hmakes.isTidy (Item.isReadable_of_mem hitem hpart)

/-- Items that can be read spell tidy shapes. -/
theorem SpellItems.isTidy {items : List Item} (hitems : ∀ item ∈ items, item.isReadable = true)
    {shapes : List Shape} (h : SpellItems items shapes) : ∀ shape ∈ shapes, shape.IsTidy := by
  intro shape hmem
  obtain ⟨part, hpart, hmakes⟩ := h.makes shape hmem
  obtain ⟨item, hitem, hpart⟩ := List.mem_flatMap.1 hpart
  exact hmakes.isTidy (Item.isReadable_of_mem (hitems item hitem) hpart)

/-! ### Entries of elements -/

/-- A child that elements give is a comment or a name of an own token, or is made by other words. -/
theorem Elements.mem_entries {elements : List Element} {entry : Slot × Node}
    (h : entry ∈ entries elements) :
    (∃ slot word spare gift, .own slot word spare gift ∈ elements ∧
      ∃ comment ∈ word.comments, entry = (slot, .ofComment comment)) ∨
    (∃ slot word spare named text, .own slot word spare (.name named text) ∈ elements ∧
      entry = (named, .ofName text)) ∨
    ∃ slot goal c, .child slot goal c ∈ elements ∧ entry = (slot, c.node) := by
  obtain ⟨element, hmem, hentry⟩ := List.mem_flatMap.1 h
  cases element with
  | space piece => cases hentry
  | own slot word spare gift =>
    rcases List.mem_append.1 hentry with hentry | hentry
    · obtain ⟨comment, hcomment, rfl⟩ := List.mem_map.1 hentry
      exact .inl ⟨slot, word, spare, gift, hmem, comment, hcomment, rfl⟩
    · cases gift with
      | name named text =>
        obtain rfl := List.mem_singleton.1 hentry
        exact .inr (.inl ⟨slot, word, spare, named, text, hmem, rfl⟩)
      | _ => cases hentry
  | child slot goal c =>
    obtain rfl := List.mem_singleton.1 hentry
    exact .inr (.inr ⟨slot, goal, c, hmem, rfl⟩)

/-- A description gives nothing to other slots. -/
theorem Elements.entriesIn_description {slot : Slot} (h : slot ≠ .description)
    (description : Option Child) (elements : List Element) :
    entriesIn slot (entries (descriptionElements description ++ elements)) =
      entriesIn slot (entries elements) := by
  cases description with
  | none => rfl
  | some c => simp [descriptionElements, entriesIn, h.symm]

/-! ### Entries of tidy shapes -/

theorem Node.ofComments_append (slot : Slot) (a b : List Comment) :
    Node.ofComments slot (a ++ b) = Node.ofComments slot a ++ Node.ofComments slot b :=
  List.map_append

namespace Elements

/-- The comments around a node are the children in its slot for comments. -/
theorem entriesIn_comments {elements : List Element}
    (h : ∀ shape ∈ shapes elements, shape.IsTidy) :
    entriesIn .comments (entries elements) = Node.ofComments .comments (comments elements) := by
  induction elements with
  | nil => rfl
  | cons element elements ih =>
    have htail := ih fun shape hmem => h shape (List.mem_cons_of_mem _ hmem)
    have hhead := h element.shape List.mem_cons_self
    rw [entries_cons, entriesIn_append, htail, comments_cons, Node.ofComments_append]
    congr 1
    cases element with
    | space piece => rfl
    | own slot word spare gift =>
      have hgift : entriesIn .comments gift.entries = [] := by
        refine List.filter_eq_nil_iff.2 fun entry he => ?_
        have hentry := hhead.2 entry he
        cases hslot : entry.1 <;> simp_all [Slot.holdsComments]
      rw [Element.entries, entriesIn_append, hgift, List.append_nil, Node.ofComments,
        entriesIn_map]
      cases slot <;> rfl
    | child slot goal c =>
      have hne : slot ≠ .comments := by
        rintro rfl
        cases hhead
      simp [entriesIn, hne, Element.comments, Node.ofComments]

/-- The slots of the children other than comments. -/
theorem slots_entriesIn {elements : List Element} (h : ∀ shape ∈ shapes elements, shape.IsTidy)
    {slot : Slot} (hslot : slot.holdsComments = false) :
    (entriesIn slot (entries elements)).map Prod.fst =
      (Shape.slots (shapes elements)).filter (· = slot) := by
  induction elements with
  | nil => rfl
  | cons element elements ih =>
    have htail := ih fun shape hmem => h shape (List.mem_cons_of_mem _ hmem)
    have hhead := h element.shape List.mem_cons_self
    rw [entries_cons, entriesIn_append, List.map_append, htail]
    rw [shapes_cons, ← List.singleton_append, Shape.slots_append, List.filter_append]
    congr 1
    cases element with
    | space piece => rfl
    | own slot' word spare gift =>
      have hne : slot' ≠ slot := by
        rintro rfl
        rw [hhead.1] at hslot
        cases hslot
      rw [Element.entries, entriesIn_append, Node.ofComments, entriesIn_map, if_neg hne]
      cases gift with
      | name slot'' text =>
        by_cases hs : slot'' = slot <;> simp [entriesIn, Shape.slots, Shape.slot?, hs]
      | _ => rfl
    | child slot' goal c =>
      by_cases hs : slot' = slot <;> simp [entriesIn, Shape.slots, Shape.slot?, hs]

end Elements

end GraphQLTree
