import GraphQLTree.Grammar.Target
import GraphQLTree.Proofs.Grammar.Regular

/-!
# Derived nodes are typed

A node that is derived for a goal is of a kind that fits the goal's content, and it is typed with all nodes
below it (`Derives.typed`). What has to be checked of the rules is that a production **fills** the fields of
its kind as their contents and arities ask for (`Production.fills`): whatever its parts give to the slot of
a field fits the field's content, one part at most gives something to a slot that has room for one child
only, and where there has to be a child, a part always gives one.
-/

namespace GraphQLTree

/-! ### Contents -/

/-- A production for a goal makes nodes that fit the goal's content. -/
theorem Goal.accepts_of_mem {goal : Goal} {p : Production} (h : p ∈ goal.productions) :
    goal.content.accepts p.kind = true := by
  have hcheck {goal : Goal} (h : (goal.productions.all fun p => goal.content.accepts p.kind) = true)
      {p : Production} (hp : p ∈ goal.productions) : goal.content.accepts p.kind = true :=
    List.all_eq_true.1 h p hp
  cases goal with
  | production q =>
    obtain rfl := List.mem_singleton.1 h
    exact decide_eq_true rfl
  | value family => cases family <;> exact hcheck (by decide) h
  | _ => exact hcheck (by decide) h

/-- A derived node fits the content of the goal. -/
theorem Derives.accepts {goal : Goal} {marks : List Mark} {pieces : List Piece} {node : Node}
    (h : Derives goal marks pieces node) : goal.content.accepts node.kind = true := by
  cases h with
  | production hgoal => exact Goal.accepts_of_mem hgoal
  | query comments hgoal => exact Goal.accepts_of_mem hgoal
  | nonNull => rfl

/-! ### Fields that are filled -/

/-- Whether what a part gives to the slot of a field fits the field's content. -/
def Part.fits (field : Field) (part : Part) : Bool :=
  (part.asks.all fun ask => ask.1 ≠ field.slot || ask.2.content = field.content) &&
    part.nameSlot?.all fun slot => slot ≠ field.slot || field.content = .kind .name

/-- Whether a part gives no more than one child to a slot. -/
def Part.givesOne (slot : Slot) : Part → Bool
  | listed slot' _ _ _ => slot' ≠ slot
  | repeated slot' _ _ => slot' ≠ slot
  | separated slot' _ _ => slot' ≠ slot
  | _ => true

/-- A part that gives no more than one child to a slot gives it one, or none if it isn't one of its
slots. -/
theorem Part.Spells.countP_slot_le {part : Part} {shapes : List Shape} (h : part.Spells shapes)
    {slot : Slot} (hcomments : slot ≠ .comments) (hone : part.givesOne slot = true) :
    shapes.countP (fun shape => shape.slot? = some slot) ≤ if slot ∈ part.slots then 1 else 0 := by
  by_cases hmem : slot ∈ part.slots
  · rw [if_pos hmem]
    cases h with
    | listed slot' => simp [slots, asks, Ne.symm (of_decide_eq_true hone)] at hmem
    | repeated slot' => simp [slots, asks, Ne.symm (of_decide_eq_true hone)] at hmem
    | separated slot' => simp [slots, asks, Ne.symm (of_decide_eq_true hone)] at hmem
    | spared slot' => simp [slots, asks, Ne.symm (of_decide_eq_true hone)] at hmem
    | spacedName slot' text => simp [List.countP_cons, Shape.slot?]; split <;> simp
    | _ => exact Nat.le_trans List.countP_le_length (by simp)
  · rw [if_neg hmem, Nat.le_zero, List.countP_eq_zero]
    intro shape hshape hslot
    have hfilled : slot ∈ shape.filled := by
      cases shape with
      | space piece => simp [Shape.slot?] at hslot
      | own slot' token spare gift =>
        cases gift with
        | name slot'' text => simp_all [Shape.slot?, Shape.filled, Gift.slots]
        | _ => simp [Shape.slot?] at hslot
      | child slot' goal => simp_all [Shape.slot?, Shape.filled]
    exact (List.mem_cons.1 (h.filled shape hshape hfilled)).elim hcomments hmem

/-- The part that an item is, if it isn't a group. -/
def Item.part? : Item → Option Part
  | part p => some p
  | group _ _ _ => none

/-- What the parts of a production give to a field. -/
structure Production.Fills (p : Production) (field : Field) : Prop where
  fits : ∀ part ∈ p.rule.items.flatMap Item.parts, part.fits field = true
  /-- There is one part at most for a slot with room for one child, and it gives no more. -/
  single : field.arity ≠ .list →
    (p.rule.items.flatMap Item.parts).countP (fun part => field.slot ∈ part.slots) ≤ 1
  givesOne : field.arity ≠ .list →
    ∀ part ∈ p.rule.items.flatMap Item.parts, part.givesOne field.slot = true
  always : field.arity = .one →
    ∃ part ∈ p.rule.items.filterMap Item.part?, part.gives? = some field.slot

instance (p : Production) (field : Field) : Decidable (p.Fills field) :=
  decidable_of_iff
    ((∀ part ∈ p.rule.items.flatMap Item.parts, part.fits field = true) ∧
      (field.arity ≠ .list →
        (p.rule.items.flatMap Item.parts).countP (fun part => field.slot ∈ part.slots) ≤ 1) ∧
      (field.arity ≠ .list →
        ∀ part ∈ p.rule.items.flatMap Item.parts, part.givesOne field.slot = true) ∧
      (field.arity = .one →
        ∃ part ∈ p.rule.items.filterMap Item.part?, part.gives? = some field.slot))
    ⟨fun ⟨fits, single, givesOne, always⟩ => ⟨fits, single, givesOne, always⟩,
      fun h => ⟨h.fits, h.single, h.givesOne, h.always⟩⟩

theorem Production.fills {p : Production} (hp : p.isReadable = true) {field : Field}
    (hfield : field ∈ p.kind.fields) : p.Fills field := by
  have hcheck := check (fun p => !p.isReadable || p.kind.fields.all fun field => p.Fills field)
    (by decide) p
  simp only [hp, Bool.not_true, Bool.false_or, List.all_eq_true, decide_eq_true_eq] at hcheck
  exact hcheck field hfield

/-- A field for comments has room for any number of them, and a field for a description for one. -/
theorem Kind.field_of_mem {kind : Kind} {field : Field} (h : field ∈ kind.fields) :
    (field.slot.holdsComments = true → field.arity = .list ∧ field.content = .comment) ∧
      (field.slot = .description → field.arity = .optional ∧ field.content = .kind .stringValue) := by
  have hcheck : ∀ kind ∈ Kind.all, ∀ field ∈ kind.fields,
      (field.slot.holdsComments = true → field.arity = .list ∧ field.content = .comment) ∧
        (field.slot = .description →
          field.arity = .optional ∧ field.content = .kind .stringValue) := by
    decide
  exact hcheck kind kind.mem_all field h

/-- Comments fit the content of the fields for them. -/
theorem Comment.accepts_comment (comment : Comment) :
    Content.comment.accepts (Node.ofComment comment).kind = true := by
  rw [Node.ofComment]
  cases comment.inline <;> rfl

/-! ### Productions -/

section Production

variable {p : Production} {description : Option Child} {elements : List Element}
  (hp : p.isReadable = true) (hspells : SpellItems p.rule.items (Elements.shapes elements))
  {field : Field} (hfield : field ∈ p.kind.fields)
include hp hspells hfield

/-- Elements give a field as many children as its arity allows. -/
theorem SpellItems.allows (hcomments : field.slot.holdsComments = false) :
    field.arity.Allows (entriesIn field.slot (Elements.entries elements)).length := by
  have hfills := Production.fills hp hfield
  have htidy := hspells.isTidy (Production.items_isReadable hp).2
  have hlength : (entriesIn field.slot (Elements.entries elements)).length =
      (Elements.shapes elements).countP fun shape => shape.slot? = some field.slot := by
    rw [← List.length_map (f := Prod.fst), Elements.slots_entriesIn htidy hcomments, Shape.slots,
      ← List.countP_eq_length_filter, List.countP_filterMap]
    refine List.countP_congr fun shape _ => ?_
    cases shape.slot? <;> simp
  have hmost (harity : field.arity ≠ .list) :
      (entriesIn field.slot (Elements.entries elements)).length ≤ 1 := by
    rw [hlength]
    have hne : field.slot ≠ .comments := fun he => by simp [he, Slot.holdsComments] at hcomments
    refine Nat.le_trans (hspells.countP_le fun part hpart shapes hshapes => ?_)
      (hfills.single harity)
    simpa using hshapes.countP_slot_le hne (hfills.givesOne harity part hpart)
  cases harity : field.arity with
  | list => trivial
  | optional => exact hmost (by simp [harity])
  | one =>
    refine Nat.le_antisymm (hmost (by simp [harity])) ?_
    obtain ⟨part, hpart, hgives⟩ := hfills.always harity
    obtain ⟨item, hitem, hsome⟩ := List.mem_filterMap.1 hpart
    obtain rfl : item = .part part := by
      cases item with
      | part q => exact congrArg Item.part (Option.some.inj hsome)
      | group => cases hsome
    obtain ⟨shapes, hshapes, hsub⟩ := hspells.exists_of_mem hitem
    obtain ⟨shape, hshape, hslot⟩ := List.mem_filterMap.1 (hshapes.gives hgives)
    rw [hlength]
    exact List.countP_pos_iff.2 ⟨shape, hsub hshape, decide_eq_true hslot⟩

/-- What elements give a field fits its content. -/
theorem SpellItems.accepts
    (hchildren : ∀ slot goal c, .child slot goal c ∈ elements →
      goal.content.accepts c.node.kind = true) {entry : Slot × Node}
    (hentry : entry ∈ entriesIn field.slot (Elements.entries elements)) :
    field.content.accepts entry.2.kind = true := by
  obtain ⟨hentry, hslot⟩ := List.mem_filter.1 hentry
  have hslot : entry.1 = field.slot := of_decide_eq_true hslot
  have hfits {shape : Shape} (hshape : shape ∈ Elements.shapes elements) :
      ∃ part : Part, part.Makes shape ∧ part.fits field = true := by
    obtain ⟨part, hpart, hmakes⟩ := hspells.makes shape hshape
    exact ⟨part, hmakes, (Production.fills hp hfield).fits part hpart⟩
  rcases Elements.mem_entries hentry with ⟨slot, word, spare, gift, hmem, comment, -, rfl⟩ |
    ⟨slot, word, spare, named, text, hmem, rfl⟩ | ⟨slot, goal, c, hmem, rfl⟩
  · -- Comments stand in slots for comments, whose content is comments.
    have htidy := hspells.isTidy (Production.items_isReadable hp).2 _ (List.mem_map_of_mem hmem)
    obtain rfl : slot = field.slot := hslot
    rw [((Kind.field_of_mem hfield).1 htidy.1).2]
    exact comment.accepts_comment
  · obtain ⟨part, hmakes, hfits⟩ := hfits (List.mem_map_of_mem hmem)
    obtain rfl : named = field.slot := hslot
    have hname : part.nameSlot? = some field.slot := hmakes.2.2.2.1 _ _ rfl
    have hcontent := (Bool.and_eq_true_iff.1 hfits).2
    rw [hname] at hcontent
    have hcontent : field.content = .kind .name := by simpa using hcontent
    rw [hcontent]
    rfl
  · obtain ⟨part, hmakes, hfits⟩ := hfits (List.mem_map_of_mem hmem)
    obtain rfl : slot = field.slot := hslot
    have hasks : (field.slot, goal) ∈ part.asks := hmakes
    have hcontent := List.all_eq_true.1 (Bool.and_eq_true_iff.1 hfits).1 _ hasks
    have hcontent : goal.content = field.content := by simpa using hcontent
    rw [← hcontent]
    exact hchildren _ _ _ hmem

end Production

/-- What is arranged stays as it is when it is arranged again. -/
theorem Node.arrange_arrange (kind : Kind) (entries : List (Slot × Node)) :
    arrange kind (arrange kind entries) = arrange kind entries := by
  conv_rhs => rw [arrange_eq_flatMap]
  rw [arrange_eq_flatMap]
  exact List.flatMap_congr fun slot hslot => entriesIn_arrange hslot entries

/-- The node that a production makes has children as the schema describes them. -/
theorem Production.fits_finish {p : Production} {description : Option Child}
    {elements : List Element} (hp : p.isReadable = true)
    (hspells : SpellItems p.rule.items (Elements.shapes elements))
    (hdescription : ∀ child ∈ description, child.node.kind = .stringValue)
    (hchildren : ∀ slot goal c, .child slot goal c ∈ elements →
      goal.content.accepts c.node.kind = true) :
    (p.finish (descriptionElements description ++ elements)).Fits := by
  have hinSlot {field : Field} (hfield : field ∈ p.kind.fields) :
      (p.finish (descriptionElements description ++ elements)).inSlot field.slot =
        (entriesIn field.slot (Elements.entries (descriptionElements description ++ elements))).map
          Prod.snd :=
    congrArg (List.map Prod.snd) (Node.entriesIn_arrange (List.mem_map_of_mem hfield) _)
  have hdescribed {field : Field} (hfield : field ∈ p.kind.fields)
      (hslot : field.slot = .description) :
      entriesIn field.slot (Elements.entries (descriptionElements description ++ elements)) =
        description.toList.map fun c => (.description, c.node) := by
    rw [hslot, Elements.entriesIn_left (by simp) (isOrderly hp).not_mem_slots.2 hspells.filled]
    cases description <;> rfl
  refine ⟨(Node.arrange_arrange p.kind _).symm, fun field hfield => ?_,
    fun field hfield child hchild => ?_⟩
  · rw [hinSlot hfield, List.length_map]
    by_cases hslot : field.slot = .description
    · rw [hdescribed hfield hslot, ((Kind.field_of_mem hfield).2 hslot).1]
      cases description <;> simp [Arity.Allows]
    · rw [Elements.entriesIn_description hslot]
      cases hcomments : field.slot.holdsComments with
      | false => exact hspells.allows hp hfield hcomments
      | true =>
        rw [((Kind.field_of_mem hfield).1 hcomments).1]
        trivial
  · rw [hinSlot hfield] at hchild
    obtain ⟨entry, hentry, rfl⟩ := List.mem_map.1 hchild
    by_cases hslot : field.slot = .description
    · rw [hdescribed hfield hslot] at hentry
      obtain ⟨c, hc, rfl⟩ := List.mem_map.1 hentry
      rw [((Kind.field_of_mem hfield).2 hslot).2, hdescription c (Option.mem_toList.1 hc)]
      rfl
    · rw [Elements.entriesIn_description hslot] at hentry
      exact hspells.accepts hp hfield hchildren hentry

namespace Node

/-- In the slots of a node with comments and one child are the comments and the child. -/
theorem inSlot_of_child (kind : Kind) (atom : Atom) (comments : List Comment) (slot s : Slot)
    (child : Node) :
    (mk kind atom (ofComments .comments comments ++ [(slot, child)])).inSlot s =
      (if .comments = s then comments.map ofComment else []) ++ if slot = s then [child] else [] := by
  have hsplit := congrArg (List.map Prod.snd) (entriesIn_append s
    (comments.map fun comment => (Slot.comments, ofComment comment)) ([child].map fun n => (slot, id n)))
  rw [entriesIn_map, entriesIn_map] at hsplit
  refine hsplit.trans ?_
  by_cases hcomments : Slot.comments = s <;> by_cases hslot : slot = s <;>
    simp [hcomments, hslot, Function.comp_def]

/-- Comments and one child are arranged if the slot of comments is in front of that of the child. -/
theorem arrange_of_child {kind : Kind} {slot : Slot} (hslot : slot ∈ kind.slots)
    (horder : kind.slots.idxOf .comments < kind.slots.idxOf slot) (comments : List Comment)
    (child : Node) :
    arrange kind (ofComments .comments comments ++ [(slot, child)]) =
      ofComments .comments comments ++ [(slot, child)] := by
  have hcomments : .comments ∈ kind.slots :=
    List.idxOf_lt_length_iff.1 (Nat.lt_trans horder (List.idxOf_lt_length_iff.2 hslot))
  have hcomment : ∀ entry ∈ ofComments .comments comments, entry.1 = .comments := by
    intro entry hentry
    obtain ⟨comment, -, rfl⟩ := List.mem_map.1 hentry
    rfl
  refine arrange_eq_self (List.forall_mem_append.2
    ⟨fun entry hentry => hcomment entry hentry ▸ hcomments, List.forall_mem_singleton.2 hslot⟩)
    (List.pairwise_append.2 ⟨List.pairwise_of_forall_mem_list fun a ha b hb => ?_,
      List.pairwise_singleton _ _, fun a ha b hb => ?_⟩)
  · rw [hcomment a ha, hcomment b hb]
  · rw [hcomment a ha, List.mem_singleton.1 hb]
    exact Nat.le_of_lt horder

/-- A node with comments and one child is as the schema describes it if the child is and there doesn't have
to be another one. -/
theorem fits_of_child {kind : Kind} {slot : Slot} {child : Node}
    (hslot : slot ∈ kind.slots) (horder : kind.slots.idxOf .comments < kind.slots.idxOf slot)
    (hchild : ∀ field ∈ kind.fields, if field.slot = slot then field.content.accepts child.kind = true
      else field.arity ≠ .one) (atom : Atom) (comments : List Comment) :
    (mk kind atom (ofComments .comments comments ++ [(slot, child)])).Fits := by
  have hne : .comments ≠ slot := by
    rintro rfl
    exact Nat.lt_irrefl _ horder
  refine ⟨(arrange_of_child hslot horder comments child).symm, fun field hfield => ?_,
    fun field hfield n hn => ?_⟩
  · rw [inSlot_of_child]
    have hchild := hchild field hfield
    split at hchild
    · next hslot =>
      rw [if_neg (hslot ▸ hne), if_pos hslot.symm]
      cases field.arity <;> simp [Arity.Allows]
    · next hslot =>
      rw [if_neg (Ne.symm hslot)]
      by_cases hcomments : .comments = field.slot
      · rw [((Kind.field_of_mem hfield).1 (by rw [← hcomments]; rfl)).1]
        trivial
      · rw [if_neg hcomments]
        cases harity : field.arity with
        | one => exact absurd harity hchild
        | _ => simp [Arity.Allows]
  · rw [inSlot_of_child] at hn
    have hchild := hchild field hfield
    rcases List.mem_append.1 hn with hn | hn <;> split at hn
    · next hslot =>
      obtain ⟨comment, -, rfl⟩ := List.mem_map.1 hn
      rw [((Kind.field_of_mem hfield).1 (by rw [← hslot]; rfl)).2]
      exact comment.accepts_comment
    · cases hn
    · next hslot =>
      rw [if_pos hslot.symm] at hchild
      rwa [List.mem_singleton.1 hn]
    · cases hn

/-- What holds of a node with comments and one child, of the comments and of the nodes of the child holds
of every node of it. -/
theorem forall_nodes_of_child {P : Node → Prop} {kind : Kind} {atom : Atom} {slot : Slot} {child : Node}
    {comments : List Comment}
    (hself : P (mk kind atom (ofComments .comments comments ++ [(slot, child)])))
    (hcomments : ∀ entry ∈ ofComments .comments comments, ∀ n ∈ entry.2.nodes, P n)
    (hchild : ∀ n ∈ child.nodes, P n) :
    ∀ n ∈ (mk kind atom (ofComments .comments comments ++ [(slot, child)])).nodes, P n := by
  intro n hn
  obtain rfl | ⟨entry, hentry, hn⟩ := mem_nodes_mk.1 hn
  · exact hself
  · rcases List.mem_append.1 hentry with hentry | hentry
    · exact hcomments entry hentry n hn
    · rw [List.mem_singleton.1 hentry] at hn
      exact hchild n hn

/-- A node without children is as the schema describes it if its kind has no fields. -/
theorem fits_leaf {kind : Kind} (h : kind.fields = []) (atom : Atom) : (mk kind atom []).Fits := by
  refine ⟨?_, ?_, ?_⟩ <;> simp [arrange, Node.children, Node.kind, h]

end Node

/-! ### All nodes of derived nodes -/

/-- What holds of nodes that productions make, of names and comments, and of queries and types that aren't
made by productions alone, holds of every node of a derived node. -/
theorem Derives.forall_nodes {P : Node → Prop}
    (hleaf : ∀ kind ∈ [Kind.name, .blockComment, .inlineComment], ∀ atom, P (.mk kind atom []))
    (hproduction : ∀ (p : Production) (description : Option Child) (elements : List Element),
      p.isReadable = true → SpellItems p.rule.items (Elements.shapes elements) →
      (∀ child ∈ description, child.node.kind = .stringValue) →
      (∀ slot goal c, .child slot goal c ∈ elements → goal.content.accepts c.node.kind = true) →
      P (p.finish (descriptionElements description ++ elements)))
    (hquery : ∀ (comments : List Comment) (node : Node), node.kind = .selectionSet →
      P (.mk .operationDefinition (.operation .query)
        (Node.ofComments .comments comments ++ [(.selectionSet, node)])))
    (hnonNull : ∀ (comments : List Comment) (node : Node),
      Content.nullableType.accepts node.kind = true →
      P (.mk .nonNullType .none (Node.ofComments .comments comments ++ [(.type, node)])))
    {goal : Goal} {marks : List Mark} {pieces : List Piece} {node : Node}
    (h : Derives goal marks pieces node) : ∀ n ∈ node.nodes, P n := by
  have hcomments (slot : Slot) (comments : List Comment) :
      ∀ entry ∈ Node.ofComments slot comments, ∀ n ∈ entry.2.nodes, P n := by
    intro entry hentry n hn
    obtain ⟨comment, -, rfl⟩ := List.mem_map.1 hentry
    obtain rfl | ⟨entry, hentry, -⟩ := Node.mem_nodes_mk.1 hn
    · exact hleaf _ (by cases comment.inline <;> simp) _
    · cases hentry
  induction h with
  | @production goal p description elements hgoal hreadable hdescribed hspells hdemand hquery
      hdescription hchildren ihdescription ihchildren =>
    intro n hn
    obtain rfl | ⟨entry, hentry, hn⟩ := Node.mem_nodes_mk.1 hn
    · exact hproduction p description elements hreadable hspells
        (fun c hc => (of_decide_eq_true (hdescription c hc).accepts).symm)
        fun slot goal c hc => (hchildren slot goal c hc).accepts
    · have hentry := Node.arrange_subset _ _ hentry
      rcases Elements.mem_entries hentry with ⟨slot, word, spare, gift, -, comment, hcomment, rfl⟩ |
        ⟨slot, word, spare, named, text, -, rfl⟩ | ⟨slot, goal, c, hmem, rfl⟩
      · exact hcomments slot word.comments _ (List.mem_map_of_mem hcomment) n hn
      · obtain rfl | ⟨entry, hentry, -⟩ := Node.mem_nodes_mk.1 hn
        · exact hleaf _ (by simp) _
        · cases hentry
      · rcases List.mem_append.1 hmem with hmem | hmem
        · exact ihdescription c (mem_descriptionElements hmem).2.2 n hn
        · exact ihchildren slot goal c hmem n hn
  | @query goal child comments hgoal hshorthand hchild ih =>
    exact Node.forall_nodes_of_child
      (hquery comments child.node (of_decide_eq_true hchild.accepts).symm)
      (hcomments .comments comments) ih
  | @nonNull marks pieces node comments h hkind ih =>
    have hnullable : ∀ kind ∈ Kind.all, Content.type.accepts kind = true → kind ≠ .nonNullType →
        Content.nullableType.accepts kind = true := by decide
    exact Node.forall_nodes_of_child
      (hnonNull comments node (hnullable _ node.kind.mem_all h.accepts hkind))
      (hcomments .comments comments) ih

/-- A node is typed if all of its nodes are as the schema describes them. -/
theorem Node.typed_of_nodes {node : Node} (h : ∀ n ∈ node.nodes, n.Fits) : node.Typed := by
  induction node using Node.induction with
  | step kind atom children ih =>
    exact .intro (h _ (mem_nodes_mk.2 (.inl rfl))) fun entry hentry =>
      ih entry hentry fun n hn => h n (mem_nodes_mk.2 (.inr ⟨entry, hentry, hn⟩))

/-- Derived nodes are typed. -/
theorem Derives.typed {goal : Goal} {marks : List Mark} {pieces : List Piece} {node : Node}
    (h : Derives goal marks pieces node) : node.Typed := by
  have hnonNull : ∀ field ∈ Kind.nonNullType.fields, if field.slot = .type then
      field.content = .nullableType else field.arity ≠ .one := by decide
  refine Node.typed_of_nodes (h.forall_nodes (fun kind hkind atom => ?_)
    (fun p description elements => Production.fits_finish) (fun comments node hkind => ?_)
    fun comments node hkind => ?_)
  · have hfields : ∀ kind ∈ [Kind.name, .blockComment, .inlineComment], kind.fields = [] := by decide
    exact Node.fits_leaf (hfields kind hkind) atom
  · exact Node.fits_of_child (by decide) (by decide) (by rw [hkind]; decide) _ comments
  · refine Node.fits_of_child (by decide) (by decide) (fun field hmem => ?_) _ comments
    have hfield := hnonNull field hmem
    split at hfield
    · next hslot => rwa [if_pos hslot, hfield]
    · next hslot => rwa [if_neg hslot]

/-! ### Values -/

/-- The literal that values of a kind are read from, if they are single tokens and hold something. -/
def Kind.valueLiteral? : Kind → Option Literal
  | intValue => some .int
  | floatValue => some .float
  | stringValue => some .string
  | booleanValue => some .boolean
  | enumValue => some .enumValue
  | _ => none

/-- What a derived value holds is read from a token by the literal of its kind. -/
theorem Derives.exists_token {goal : Goal} {marks : List Mark} {pieces : List Piece} {node : Node}
    (h : Derives goal marks pieces node) :
    ∀ n ∈ node.nodes, ∀ l ∈ n.kind.valueLiteral?, ∃ token, l.read? token = some n.atom := by
  have hliteral {p : Production} (hp : p.isReadable = true) {l : Literal}
      (hl : l ∈ p.kind.valueLiteral?) : .part (.literal l) ∈ p.rule.items := by
    have hcheck := Production.check (fun p => !p.isReadable ||
      p.kind.valueLiteral?.all fun l => .part (.literal l) ∈ p.rule.items) (by decide) p
    simpa [hp, Option.mem_def.1 hl] using hcheck
  refine h.forall_nodes (fun kind hkind atom l hl => ?_)
    (fun p description elements hp hspells _ _ l hl => ?_) (fun _ _ _ l hl => by cases hl)
    (fun _ _ _ l hl => by cases hl)
  · have hnone : ∀ kind ∈ [Kind.name, .blockComment, .inlineComment], kind.valueLiteral? = none := by
      decide
    rw [Node.kind, hnone kind hkind] at hl
    cases hl
  · obtain ⟨shapes, hshapes, hsub⟩ := hspells.exists_of_mem (hliteral hp hl)
    cases hshapes with
    | literal l token atom hread =>
      have hatom : (p.finish (descriptionElements description ++ elements)).atom = atom :=
        (Production.atom_eq hp hspells).1 atom (Shape.mem_atoms (hsub List.mem_cons_self))
      exact ⟨token, hatom ▸ hread⟩

end GraphQLTree
