import GraphQLTree.Proofs.Grammar.Printing
import GraphQLTree.Proofs.Language.Symbols
import GraphQLTree.Proofs.Tree.Regular

/-!
# Derivations of regular nodes

What is derived from regular words is regular, and so are all nodes below it (`Derives.regular`). A node
that a production makes is regular because of what its rule says (`Production.SuitsKind`): which of its
parts is a literal (`Production.admits_finish`), which list can't be empty (`Production.filled_finish`),
which words a name can't be (`Production.named_finish`), whether it demands a child
(`Production.adds_finish`), and that no two own tokens have their comments in a slot for those of one
(`Production.inline_finish`).
-/

namespace GraphQLTree

variable {bare : Prop}

/-- Whether all words are regular. -/
def Mark.Regular (bare : Prop) (marks : List Mark) : Prop :=
  ∀ mark ∈ marks, mark.word.Regular bare

/-! ### Names and comments -/

namespace Node

theorem regular_ofName {text : String} (h : Token.IsName text.toList) :
    ∀ n ∈ (ofName text).nodes, n.Regular bare := by
  intro n hn
  obtain rfl : n = ofName text := by simpa [ofName, mem_nodes_mk] using hn
  refine ⟨⟨text, rfl, h⟩, ?_, ?_, ?_, ?_⟩ <;>
    simp [ofName, kind, Kind.filledSlot?, Kind.reserved, Language.isExtension, inSlot, children]

theorem regular_ofComment (comment : Comment) : ∀ n ∈ (ofComment comment).nodes, n.Regular bare := by
  intro n hn
  obtain rfl : n = ofComment comment := by simpa [ofComment, mem_nodes_mk] using hn
  obtain ⟨inline, text⟩ := comment
  cases inline <;> constructor <;>
    simp [ofComment, kind, Kind.Admits, Kind.filledSlot?, Kind.reserved, Language.isExtension,
      inSlot, children]

/-- Comments in a slot are in order if they are. -/
theorem inline_ofComments {comments : List Comment}
    (h : ∀ comment ∈ comments.dropLast, comment.inline = false) (slot : Slot) :
    ∀ comment ∈ ((ofComments slot comments).map Prod.snd).dropLast, comment.kind = .blockComment := by
  intro comment hmem
  rw [ofComments, List.map_map, ← List.map_dropLast] at hmem
  obtain ⟨c, hc, rfl⟩ := List.mem_map.1 hmem
  simp [ofComment, kind, h c hc]

end Node

/-! ### Names of parts -/

/-- A name that a part spells isn't one that it refuses. -/
theorem Part.Spells.token_of_name {part : Part} {shapes : List Shape} (h : part.Spells shapes)
    {slot named : Slot} {token : Token} {spare : Bool} {text : String}
    (hmem : .own slot token spare (.name named text) ∈ shapes) :
    token = .name text ∧
      ((∃ rule, part = .name named rule ∧ rule.refuses? text = none) ∨ part = .spacedName named) := by
  obtain ⟨-, -, -, hname, -⟩ := h.makes _ hmem
  have hname := hname named text rfl
  cases h with
  | name slot' rule text' hrule =>
    obtain ⟨rfl, rfl, rfl, rfl, rfl⟩ : _ ∧ _ ∧ _ ∧ _ ∧ _ := by simpa using hmem
    exact ⟨rfl, .inl ⟨rule, rfl, hrule⟩⟩
  | spacedName slot' text' =>
    obtain ⟨rfl, rfl, rfl, rfl, rfl⟩ : _ ∧ _ ∧ _ ∧ _ ∧ _ := by simpa using hmem
    exact ⟨rfl, .inr rfl⟩
  | _ => cases hname

/-- Whether a part gives a node no name that is a keyword. -/
def Part.bars (k : Keyword) (part : Part) : Bool :=
  (part.asks.all fun ask => ask.1 ≠ .name) && match part with
    | name slot rule => slot ≠ .name || (rule.refuses? k.text).isSome
    | spacedName slot => slot ≠ .name
    | _ => true

theorem Part.Spells.ne_of_bars {part : Part} {shapes : List Shape} (h : part.Spells shapes)
    {k : Keyword} (hbars : part.bars k = true) {slot : Slot} {token : Token} {spare : Bool}
    {text : String} (hmem : .own slot token spare (.name .name text) ∈ shapes) : text ≠ k.text := by
  have hbars := (Bool.and_eq_true_iff.1 hbars).2
  rcases (h.token_of_name hmem).2 with ⟨rule, rfl, hnone⟩ | rfl
  · rintro rfl
    simp [hnone] at hbars
  · cases hbars

/-! ### Children of parts -/

/-- Whether a part always gives children in a slot. -/
def Part.fills (slot : Slot) : Part → Bool
  | listed slot' _ _ allowEmpty => slot' = slot && !allowEmpty
  | separated slot' _ _ => slot' = slot
  | _ => false

theorem Part.Spells.fills {part : Part} {shapes : List Shape} (h : part.Spells shapes) {slot : Slot}
    (hfills : part.fills slot = true) : slot ∈ Shape.slots shapes := by
  cases h with
  | listed slot' goal close allowEmpty n hn =>
    simp only [Part.fills, Bool.and_eq_true, decide_eq_true_eq, Bool.not_eq_true'] at hfills
    obtain ⟨rfl, hempty⟩ := hfills
    cases n with
    | zero => rw [hn rfl] at hempty; cases hempty
    | succ n => exact List.mem_filterMap.2 ⟨.child slot' goal, by simp [Shape.listed], rfl⟩
  | separated slot' goal delimiter n =>
    obtain rfl := of_decide_eq_true hfills
    exact List.mem_filterMap.2 ⟨.child slot' goal, List.mem_cons_self, rfl⟩
  | spared slot' goal delimiter n =>
    obtain rfl := of_decide_eq_true hfills
    exact List.mem_filterMap.2 ⟨.child slot' goal, by simp [Shape.separated], rfl⟩
  | _ => cases hfills

/-! ### Comments of own tokens -/

/-- Whether a shape is an own token with its comments in a slot. -/
def Shape.isOwnIn (slot : Slot) : Shape → Bool
  | own slot' _ _ _ => slot' = slot
  | _ => false

/-- Whether a part has own tokens with their comments in a slot. -/
def Part.ownsIn (slot : Slot) (part : Part) : Bool :=
  part.hasOwn && part.commentSlot = slot

/-- Whether a part can have several own tokens with their comments in a slot. -/
def Part.repeatsIn (slot : Slot) : Part → Bool
  | separated _ _ _ => slot = .comments
  | _ => false

/-- A part that doesn't repeat them has one own token with its comments in a slot, or none. -/
theorem Part.Spells.countP_isOwnIn {part : Part} {shapes : List Shape} (h : part.Spells shapes)
    {slot : Slot} (hrepeats : part.repeatsIn slot = false) :
    shapes.countP (Shape.isOwnIn slot) ≤ if part.ownsIn slot = true then 1 else 0 := by
  by_cases howns : part.ownsIn slot = true
  · rw [if_pos howns]
    have hslot := of_decide_eq_true (Bool.and_eq_true_iff.1 howns).2
    -- Only separated children bring several own tokens, and those have their comments with the
    -- node's.
    cases h with
    | separated slot' goal delimiter n => exact absurd hslot.symm (of_decide_eq_false hrepeats)
    | spared slot' goal delimiter n => exact absurd hslot.symm (of_decide_eq_false hrepeats)
    | listed => simp [ownsIn, hasOwn] at howns
    | repeated => simp [ownsIn, hasOwn] at howns
    | spacedName slot' text => simp [List.countP_cons, Shape.isOwnIn]; split <;> simp
    | _ => exact Nat.le_trans List.countP_le_length (by simp)
  · rw [if_neg howns, Nat.le_zero, List.countP_eq_zero]
    intro shape hmem hown
    have hmakes := h.makes shape hmem
    cases shape with
    | own slot' token spare gift =>
      obtain ⟨hhas, hslot, -⟩ := hmakes
      refine howns (Bool.and_eq_true_iff.2 ⟨hhas, decide_eq_true ?_⟩)
      exact hslot.symm.trans (of_decide_eq_true hown)
    | _ => cases hown

/-- A tidy shape fills a slot for comments only with those of its own token. -/
theorem Shape.IsTidy.not_mem_filled {shape : Shape} (h : shape.IsTidy) {slot : Slot}
    (hslot : slot.holdsComments = true) (hown : shape.isOwnIn slot = false) :
    slot ∉ shape.filled := by
  intro hmem
  cases shape with
  | space piece => cases hmem
  | own slot' token spare gift =>
    rcases List.mem_cons.1 hmem with rfl | hmem
    · simp [isOwnIn] at hown
    · cases gift with
      | name named text =>
        obtain rfl := List.mem_singleton.1 hmem
        have hfalse := h.2 _ (List.mem_singleton_self _)
        rw [hslot] at hfalse
        cases hfalse
      | _ => cases hmem
  | child slot' goal =>
    obtain rfl := List.mem_singleton.1 hmem
    have hfalse : slot.holdsComments = false := h
    rw [hslot] at hfalse
    cases hfalse

/-- The children in a slot for comments are those of one word if there is one own token for it at
most. -/
theorem Elements.entriesIn_of_countP {elements : List Element}
    (h : ∀ shape ∈ shapes elements, shape.IsTidy) {slot : Slot} (hslot : slot.holdsComments = true)
    (hcount : (shapes elements).countP (Shape.isOwnIn slot) ≤ 1) :
    entriesIn slot (entries elements) = [] ∨ ∃ mark ∈ marks elements,
      entriesIn slot (entries elements) = Node.ofComments slot mark.word.comments := by
  induction elements with
  | nil => exact .inl rfl
  | cons element elements ih =>
    obtain ⟨hhead, htail⟩ := List.forall_mem_cons.1 h
    rw [shapes_cons, List.countP_cons] at hcount
    rw [← List.singleton_append, entries_append, entriesIn_append]
    cases hown : element.shape.isOwnIn slot with
    -- The element has nothing for the slot, so its comments are those of the others.
    | false =>
      rw [hown] at hcount
      have hnone : entriesIn slot (entries [element]) = [] :=
        entriesIn_eq_nil (List.forall_mem_singleton.2 (hhead.not_mem_filled hslot hown))
      rw [hnone, List.nil_append]
      refine (ih htail (by simpa using hcount)).imp id fun ⟨mark, hmark, hentries⟩ => ?_
      exact ⟨mark, by simp [hmark], hentries⟩
    -- This is the one own token, so that the others have nothing for the slot.
    | true =>
      rw [hown] at hcount
      have hzero : (shapes elements).countP (Shape.isOwnIn slot) = 0 := by simpa using hcount
      have hnone : entriesIn slot (entries elements) = [] := entriesIn_eq_nil fun shape hshape =>
        (htail shape hshape).not_mem_filled hslot
          (by simpa using List.countP_eq_zero.1 hzero shape hshape)
      rw [hnone, List.append_nil]
      cases element with
      | own slot' word spare gift =>
        obtain rfl : slot' = slot := of_decide_eq_true hown
        refine .inr ⟨⟨word, spare⟩, by simp, ?_⟩
        have hgift : entriesIn slot' gift.entries = [] := List.filter_eq_nil_iff.2 fun entry hentry => by
          have hfalse := hhead.2 entry hentry
          have hne : entry.1 ≠ slot' := by
            rintro rfl
            rw [hslot] at hfalse
            cases hfalse
          simpa using hne
        have hentries : entries [.own slot' word spare gift] =
            Node.ofComments slot' word.comments ++ gift.entries := List.append_nil _
        rw [hentries, entriesIn_append, entriesIn_ofComments, hgift, List.append_nil]
      | _ => cases hown

/-! ### Literals -/

/-- The literal that nodes of a kind are read from. -/
def Kind.literal? : Kind → Option Literal
  | intValue => some .int
  | floatValue => some .float
  | stringValue => some .string
  | enumValue => some .enumValue
  | _ => none

/-- An enum value is none of the words that are other values. -/
theorem NameRule.ne_of_refuses {text : String} (h : NameRule.enumValue.refuses? text = none) :
    ∀ k ∈ [Keyword.trueValue, .falseValue, .nullValue], text ≠ k.text := by
  rintro k hk rfl
  have hrefuses : ∀ k ∈ [Keyword.trueValue, .falseValue, .nullValue],
      NameRule.enumValue.refuses? k.text ≠ none := by decide
  exact hrefuses k hk h

/-- A kind admits what its literal reads from a regular token. -/
theorem Kind.admits_of_read {kind : Kind} {l : Literal} (hl : kind.literal? = some l) {token : Token}
    (htoken : token.Regular bare) {atom : Atom} (h : l.read? token = some atom) : kind.Admits bare atom := by
  cases kind <;> cases hl
  · cases token <;> cases h
    exact ⟨_, rfl, htoken⟩
  · cases token <;> cases h
    exact ⟨_, rfl, htoken⟩
  · cases token <;> cases h
    · exact ⟨_, _, rfl, by simp⟩
    · exact ⟨_, _, rfl, fun _ => htoken⟩
  · cases token with
    | name text =>
      rw [Literal.read?] at h
      split at h
      · cases h
      · next hnone =>
        obtain rfl := Option.some.inj h
        exact ⟨text, rfl, htoken, NameRule.ne_of_refuses (by simpa using hnone)⟩
    | _ => cases h

/-- Kinds that aren't read from literals admit everything. -/
theorem Kind.admits_of_none {kind : Kind} (hname : kind ≠ .name) (h : kind.literal? = none)
    (atom : Atom) : kind.Admits bare atom := by
  cases kind <;> trivial

/-! ### Productions -/

namespace Production

/-- What a rule sees to because the language wants it of the nodes of the rule's kind. -/
structure SuitsKind (p : Production) : Prop where
  /-- What a node holds is read by the literal of its kind, if there is one. -/
  literal : p.kind ≠ .name ∧ ∀ l ∈ p.kind.literal?, .part (.literal l) ∈ p.rule.items
  /-- Where the language wants children, a part outside of groups gives some. -/
  fills : ∀ slot ∈ p.kind.filledSlot?, ∃ part ∈ p.rule.items.flatMap Item.parts,
    .part part ∈ p.rule.items ∧ part.fills slot = true
  /-- No part gives a node a name that is reserved. -/
  bars : ∀ k ∈ p.kind.reserved, ∀ part ∈ p.rule.items.flatMap Item.parts, part.bars k = true
  /-- An extension must have no other child than its name. -/
  arity : Language.isExtension p.kind = true → ∀ field ∈ p.kind.fields,
    field.slot ≠ .name → field.slot.holdsComments = false → field.arity ≠ .one
  /-- A slot for the comments of one token has one own token at most. -/
  sole : ∀ slot ∈ p.kind.soleSlots,
    (p.rule.items.flatMap Item.parts).countP (Part.ownsIn slot) ≤ 1 ∧
      ∀ part ∈ p.rule.items.flatMap Item.parts, part.repeatsIn slot = false

instance (p : Production) : Decidable p.SuitsKind :=
  decidable_of_iff
    ((p.kind ≠ .name ∧ ∀ l ∈ p.kind.literal?, .part (.literal l) ∈ p.rule.items) ∧
      (∀ slot ∈ p.kind.filledSlot?, ∃ part ∈ p.rule.items.flatMap Item.parts,
        .part part ∈ p.rule.items ∧ part.fills slot = true) ∧
      (∀ k ∈ p.kind.reserved, ∀ part ∈ p.rule.items.flatMap Item.parts, part.bars k = true) ∧
      (Language.isExtension p.kind = true → ∀ field ∈ p.kind.fields,
        field.slot ≠ .name → field.slot.holdsComments = false → field.arity ≠ .one) ∧
      ∀ slot ∈ p.kind.soleSlots, (p.rule.items.flatMap Item.parts).countP (Part.ownsIn slot) ≤ 1 ∧
        ∀ part ∈ p.rule.items.flatMap Item.parts, part.repeatsIn slot = false)
    ⟨fun ⟨hliteral, hfills, hbars, harity, hsole⟩ => ⟨hliteral, hfills, hbars, harity, hsole⟩,
    fun h => ⟨h.literal, h.fills, h.bars, h.arity, h.sole⟩⟩

theorem suitsKind {p : Production} (hp : p.isReadable = true) : p.SuitsKind := by
  have hcheck := check (fun p => !p.isReadable || p.SuitsKind) (by decide) p
  simpa [hp] using hcheck

variable {p : Production} (hp : p.isReadable = true) {description : Option Child}
  {elements : List Element} (hspells : SpellItems p.rule.items (Elements.shapes elements))
include hp hspells

/-- What a node holds is admitted by its kind. -/
theorem admits_finish (hmarks : Mark.Regular bare (Elements.marks elements)) :
    p.kind.Admits bare (p.finish (descriptionElements description ++ elements)).atom := by
  obtain ⟨hname, hparts⟩ := (suitsKind hp).literal
  cases hliteral : p.kind.literal? with
  | none => exact Kind.admits_of_none hname hliteral _
  | some l =>
    obtain ⟨a, ha, hsub⟩ := hspells.exists_of_mem (hparts l hliteral)
    cases ha with
    | literal l token atom hread =>
      have hshape := hsub List.mem_cons_self
      have hatom : (p.finish (descriptionElements description ++ elements)).atom = atom :=
        (atom_eq hp hspells).1 atom (Shape.mem_atoms hshape)
      obtain ⟨element, helement, hshape⟩ := List.mem_map.1 hshape
      cases element with
      | own slot word spare gift =>
        obtain ⟨rfl, rfl, rfl, rfl⟩ : _ ∧ _ ∧ _ ∧ _ := by simpa [Element.shape] using hshape
        have hword := hmarks ⟨word, false⟩ (List.mem_flatMap.2 ⟨_, helement, List.mem_singleton_self _⟩)
        rw [hatom]
        exact Kind.admits_of_read hliteral hword.token hread
      | _ => cases hshape

/-- A node has children in the slots that its elements give one to. -/
theorem inSlot_ne_nil {slot : Slot} (h : slot ∈ Shape.slots (Elements.shapes elements)) :
    (p.finish (descriptionElements description ++ elements)).inSlot slot ≠ [] := by
  have hitems := (items_isReadable hp).2
  have htidy := hspells.isTidy hitems
  obtain ⟨shape, hshape, hslot⟩ := List.mem_filterMap.1 h
  have hholds := (htidy shape hshape).slot? hslot
  have hfilled := hspells.slots_subset hitems h
  have hne : slot ≠ .description := by
    rintro rfl
    exact (isOrderly hp).not_mem_slots.2 hfilled
  intro hnil
  have hentries : entriesIn slot (Elements.entries elements) = [] := by
    rw [← Elements.entriesIn_description hne description,
      ← Node.entriesIn_arrange ((isOrderly hp).slots_subset hfilled)]
    exact List.map_eq_nil_iff.1 hnil
  have hslots := Elements.slots_entriesIn htidy hholds
  rw [hentries, List.map_nil] at hslots
  exact List.filter_eq_nil_iff.1 hslots.symm slot h (decide_eq_true rfl)

/-- A node has children where the language wants some. -/
theorem filled_finish : ∀ slot ∈ p.kind.filledSlot?,
    (p.finish (descriptionElements description ++ elements)).inSlot slot ≠ [] := by
  intro slot hslot
  obtain ⟨part, -, hpart, hfills⟩ := (suitsKind hp).fills slot hslot
  obtain ⟨a, ha, hsub⟩ := hspells.exists_of_mem hpart
  exact inSlot_ne_nil hp hspells (List.filterMap_subset _ hsub (ha.fills hfills))

/-- An extension has directives or one of its optional parts. -/
theorem adds_finish (hdemand : p.demands = true → Shape.hasParts (Elements.shapes elements) = true)
    (h : Language.isExtension p.kind = true) :
    ∃ field ∈ p.kind.fields, field.arity ≠ .one ∧ field.slot.holdsComments = false ∧
      (p.finish (descriptionElements description ++ elements)).inSlot field.slot ≠ [] := by
  obtain ⟨slot, hslot, hpart⟩ := List.any_eq_true.1 (hdemand ((demands_eq hp).trans h))
  have hslots := (isOrderly hp).slots_subset (hspells.slots_subset (items_isReadable hp).2 hslot)
  obtain ⟨field, hfield, rfl⟩ := List.mem_map.1 hslots
  simp only [Bool.and_eq_true, Bool.not_eq_true', bne_iff_ne] at hpart
  exact ⟨field, hfield, (suitsKind hp).arity h field hfield hpart.2 hpart.1, hpart.1,
    inSlot_ne_nil hp hspells hslot⟩

/-- The name of a node is no word that its kind reserves. -/
theorem named_finish : ∀ child ∈ (p.finish (descriptionElements description ++ elements)).inSlot .name,
    ∀ k ∈ p.kind.reserved, child.text ≠ k.text := by
  intro child hchild k hk
  have hbars := (suitsKind hp).bars k hk
  obtain ⟨entry, hentry, rfl⟩ := List.mem_map.1 hchild
  obtain ⟨hmem, hslot⟩ := List.mem_filter.1 hentry
  have hmem : entry ∈ entriesIn .name (Elements.entries elements) := by
    rw [← Elements.entriesIn_description (by decide) description]
    exact List.mem_filter.2 ⟨Node.arrange_subset _ _ hmem, hslot⟩
  have hslot : entry.1 = .name := of_decide_eq_true hslot
  rcases Elements.mem_entries (List.mem_filter.1 hmem).1 with
    ⟨slot, word, spare, gift, helement, comment, -, rfl⟩ |
    ⟨slot, word, spare, named, text, helement, rfl⟩ | ⟨slot, goal, c, helement, rfl⟩
  · have htidy := hspells.isTidy (items_isReadable hp).2 _ (List.mem_map_of_mem helement)
    obtain rfl : slot = .name := hslot
    cases htidy.1
  · obtain rfl : named = .name := hslot
    obtain ⟨part, hpart, a, ha, hmem⟩ := hspells.exists_spells (List.mem_map_of_mem helement)
    exact ha.ne_of_bars (hbars part hpart) hmem
  · obtain rfl : slot = .name := hslot
    obtain ⟨part, hpart, hmakes⟩ := hspells.makes _ (List.mem_map_of_mem helement)
    have hasks := (Bool.and_eq_true_iff.1 (hbars part hpart)).1
    exact absurd (List.all_eq_true.1 hasks _ hmakes) (by simp)

/-- Only the last comment of a token is inline. -/
theorem inline_finish (hmarks : Mark.Regular bare (Elements.marks elements)) :
    ∀ slot ∈ p.kind.soleSlots,
      ∀ comment ∈ ((p.finish (descriptionElements description ++ elements)).inSlot slot).dropLast,
        comment.kind = .blockComment := by
  intro slot hslot
  obtain ⟨hcount, hrepeats⟩ := (suitsKind hp).sole slot hslot
  have hholds := Kind.holdsComments_of_mem_soleSlots hslot
  by_cases hslots : slot ∈ p.kind.slots
  · have hne : slot ≠ .description := by
      rintro rfl
      cases hholds
    have hcount := Nat.le_trans (hspells.countP_le fun part hpart a ha =>
      ha.countP_isOwnIn (hrepeats part hpart)) hcount
    have hinSlot : (p.finish (descriptionElements description ++ elements)).inSlot slot =
        (entriesIn slot (Elements.entries elements)).map Prod.snd := by
      rw [← Elements.entriesIn_description hne description, ← Node.entriesIn_arrange hslots]
      rfl
    rw [hinSlot]
    rcases Elements.entriesIn_of_countP (hspells.isTidy (items_isReadable hp).2) hholds hcount with
      hnil | ⟨mark, hmark, hentries⟩
    · simp [hnil]
    · rw [hentries]
      exact Node.inline_ofComments (hmarks mark hmark).inline slot
  · have hnil : (p.finish (descriptionElements description ++ elements)).inSlot slot = [] := by
      refine List.map_eq_nil_iff.2 (List.filter_eq_nil_iff.2 fun entry hentry heq => hslots ?_)
      rw [← of_decide_eq_true heq]
      exact Node.mem_slots_of_arrange hentry
    simp [hnil]

/-- A node that a production makes is regular. -/
theorem regular_finish (hmarks : Mark.Regular bare (Elements.marks elements))
    (hdemand : p.demands = true → Shape.hasParts (Elements.shapes elements) = true) :
    (p.finish (descriptionElements description ++ elements)).Regular bare where
  admits := admits_finish hp hspells hmarks
  filled := filled_finish hp hspells
  named := named_finish hp hspells
  adds := adds_finish hp hspells hdemand
  inline := inline_finish hp hspells hmarks

end Production

/-! ### All nodes -/

/-- The children that elements give are regular with all nodes below them. -/
theorem SpellItems.regular_entries {items : List Item} {elements : List Element}
    (h : SpellItems items (Elements.shapes elements)) (hmarks : Mark.Regular bare (Elements.marks elements))
    (hchildren : ∀ slot goal c, .child slot goal c ∈ elements → ∀ n ∈ c.node.nodes, n.Regular bare) :
    ∀ entry ∈ Elements.entries elements, ∀ n ∈ entry.2.nodes, n.Regular bare := by
  intro entry hentry
  rcases Elements.mem_entries hentry with ⟨slot, word, spare, gift, -, comment, -, rfl⟩ |
    ⟨slot, word, spare, named, text, hmem, rfl⟩ | ⟨slot, goal, c, hmem, rfl⟩
  · exact Node.regular_ofComment comment
  · obtain ⟨part, -, a, ha, hshape⟩ := h.exists_spells (List.mem_map_of_mem hmem)
    have hword := hmarks ⟨word, spare⟩ (List.mem_flatMap.2 ⟨_, hmem, List.mem_singleton_self _⟩)
    have htoken := hword.token
    rw [(ha.token_of_name hshape).1] at htoken
    exact Node.regular_ofName htoken
  · exact hchildren slot goal c hmem

theorem Node.regular_ofComments (slot : Slot) (comments : List Comment) :
    ∀ entry ∈ ofComments slot comments, ∀ n ∈ entry.2.nodes, n.Regular bare := by
  rintro entry hentry
  obtain ⟨comment, -, rfl⟩ := List.mem_map.1 hentry
  exact regular_ofComment comment

/-- A node with comments and one child is regular if the language wants nothing else of its kind, and
the comments are in order if they are those of one token. -/
theorem Node.regular_of_child {kind : Kind} {atom : Atom} (hadmits : kind.Admits bare atom)
    (hfilled : kind.filledSlot? = none) (hreserved : kind.reserved = [])
    (hextension : Language.isExtension kind = false) {comments : List Comment}
    (hcomments : kind.isToken = true → ∀ comment ∈ comments.dropLast, comment.inline = false)
    {slot : Slot} (hslot : slot.holdsComments = false) (child : Node) :
    (mk kind atom (ofComments .comments comments ++ [(slot, child)])).Regular bare where
  admits := hadmits
  filled := by simp [Node.kind, hfilled]
  named := by simp [Node.kind, hreserved]
  adds := by simp [Node.kind, hextension]
  inline := by
    intro sole hsole
    have hne : slot ≠ sole := by
      rintro rfl
      rw [Kind.holdsComments_of_mem_soleSlots hsole] at hslot
      cases hslot
    have hinSlot : (mk kind atom (ofComments .comments comments ++ [(slot, child)])).inSlot sole =
        (entriesIn sole (ofComments .comments comments)).map Prod.snd := by
      have hentries : entriesIn sole (ofComments .comments comments ++ [(slot, child)]) =
          entriesIn sole (ofComments .comments comments) := by
        rw [entriesIn_append]
        simp [entriesIn, hne]
      exact congrArg (List.map Prod.snd) hentries
    rw [hinSlot]
    by_cases heq : sole = .comments
    · subst heq
      have htoken : kind.isToken = true := by
        cases htoken : kind.isToken with
        | true => rfl
        | false => simp [Kind.soleSlots, Node.kind, htoken] at hsole
      rw [entriesIn_ofComments]
      exact inline_ofComments (hcomments htoken) .comments
    · simp [entriesIn_ofComments_of_ne (Ne.symm heq)]

/-- A node is regular with all nodes below it if it is derived from regular words. -/
theorem Derives.regular {goal : Goal} {marks : List Mark} {pieces : List Piece} {node : Node}
    (h : Derives goal marks pieces node) (hmarks : Mark.Regular bare marks) :
    ∀ n ∈ node.nodes, n.Regular bare := by
  induction h with
  | @production goal p description elements hgoal hreadable hdescribed hspells hdemand hquery
      hdescription hchildren ihdescription ihchildren =>
    rw [Elements.marks_append] at hmarks
    obtain ⟨hfirst, hrest⟩ := List.forall_mem_append.1 hmarks
    have hchild {slot : Slot} {goal : Goal} {c : Child} (hc : .child slot goal c ∈ elements) :
        Mark.Regular bare c.marks :=
      fun mark hmark => hrest mark (List.mem_flatMap.2 ⟨.child slot goal c, hc, hmark⟩)
    intro n hn
    -- A node is the one that the production makes, below its description, or below another child of
    -- it.
    rcases Node.mem_nodes_mk.1 hn with rfl | ⟨entry, hentry, hn⟩
    · exact Production.regular_finish hreadable hspells hrest hdemand
    have hentry := Node.arrange_subset _ _ hentry
    rw [Elements.entries_append] at hentry
    rcases List.mem_append.1 hentry with hentry | hentry
    · cases description with
      | none => cases hentry
      | some c =>
        obtain rfl : entry = (.description, c.node) := by simpa [descriptionElements] using hentry
        refine ihdescription c rfl (fun mark hmark => hfirst mark ?_) n hn
        simpa [descriptionElements] using hmark
    · exact hspells.regular_entries hrest
        (fun slot goal c hc => ihchildren slot goal c hc (hchild hc)) entry hentry n hn
  | @query goal child comments hgoal hshorthand hchild ih =>
    intro n hn
    rcases Node.mem_nodes_mk.1 hn with rfl | ⟨entry, hentry, hn⟩
    · exact Node.regular_of_child (by trivial) rfl rfl rfl (by simp [Kind.isToken]) rfl child.node
    rcases List.mem_append.1 hentry with hentry | hentry
    · exact Node.regular_ofComments .comments comments entry hentry n hn
    · obtain rfl := List.mem_singleton.1 hentry
      exact ih (List.forall_mem_cons.1 hmarks).2 n hn
  | @nonNull marks pieces node comments h hkind ih =>
    obtain ⟨hmarks, hword⟩ := List.forall_mem_append.1 hmarks
    intro n hn
    rcases Node.mem_nodes_mk.1 hn with rfl | ⟨entry, hentry, hn⟩
    · have hword := hword _ (List.mem_singleton_self _)
      exact Node.regular_of_child (by trivial) rfl rfl rfl (fun _ => hword.inline) rfl node
    rcases List.mem_append.1 hentry with hentry | hentry
    · exact Node.regular_ofComments .comments comments entry hentry n hn
    · obtain rfl := List.mem_singleton.1 hentry
      exact ih hmarks n hn

end GraphQLTree
