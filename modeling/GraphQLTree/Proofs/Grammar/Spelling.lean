import GraphQLTree.Proofs.Grammar.Printing
import GraphQLTree.Proofs.Grammar.Tokens
import GraphQLTree.Proofs.Language.Sound
import GraphQLTree.Proofs.Tree.WellFormed

/-!
# Spelling a node

A goal **writes** a node that it derives from **plain** words, which are sound, have no comments and are
none of them spare. Elements **spell** a node if they give just what the node has in some slots, in plain
words. A part of a rule can be spelled if the node **suits** it: if the node has what the part is to give
(`Part.Suits.exists_elements`).
-/

namespace GraphQLTree

/-- Whether a word can be written as it is: sound, without comments and not spare. -/
structure Mark.IsPlain (mark : Mark) : Prop where
  bare : mark.word.comments = []
  sound : mark.word.token.Sound
  kept : mark.spare = false

/-- Whether all words are plain. -/
def Mark.Plain (marks : List Mark) : Prop :=
  ∀ mark ∈ marks, mark.IsPlain

theorem Mark.plain_append {a b : List Mark} : Plain (a ++ b) ↔ Plain a ∧ Plain b :=
  List.forall_mem_append

theorem Mark.Plain.bare {marks : List Mark} (h : Plain marks) : Bare marks :=
  fun mark hmark => (h mark hmark).bare

/-- Whether a goal derives a node from plain words. -/
def Goal.Writes (goal : Goal) (node : Node) : Prop :=
  ∃ c : Child, c.node = node ∧ Derives goal c.marks c.pieces c.node ∧ Mark.Plain c.marks

/-! ### Elements of a node -/

/-- Whether elements spell just what a node has in some slots, in plain words. -/
structure Elements.Spell (node : Node) (slots : List Slot) (elements : List Element) : Prop where
  derived : ∀ element ∈ elements, element.Derived
  plain : Mark.Plain (Elements.marks elements)
  entries : ∀ slot, entriesIn slot (Elements.entries elements) =
    if slot ∈ slots then entriesIn slot node.children else []
  atoms : ∀ a ∈ Shape.atoms (Elements.shapes elements), a = node.atom

namespace Elements.Spell

variable {node : Node} {slots slots' : List Slot} {a b : List Element}

theorem nil : Elements.Spell node [] [] := by
  constructor <;> simp [Mark.Plain, Shape.atoms, entriesIn]

theorem append (ha : Elements.Spell node slots a) (hb : Elements.Spell node slots' b)
    (hdisjoint : ∀ slot ∈ slots, slot ∉ slots') : Elements.Spell node (slots ++ slots') (a ++ b) where
  derived := List.forall_mem_append.2 ⟨ha.derived, hb.derived⟩
  plain := by
    rw [Elements.marks_append]
    exact Mark.plain_append.2 ⟨ha.plain, hb.plain⟩
  entries slot := by
    rw [Elements.entries_append, entriesIn_append, ha.entries, hb.entries]
    by_cases hs : slot ∈ slots
    · simp [hs, hdisjoint slot hs]
    · simp [hs]
  atoms := by
    rw [Elements.shapes_append, Shape.atoms_append]
    exact List.forall_mem_append.2 ⟨ha.atoms, hb.atoms⟩

/-- Elements that give no child but are spread over slots without children. -/
theorem of_empty (h : Elements.Spell node [] a) (hslots : ∀ slot ∈ slots, entriesIn slot node.children = []) :
    Elements.Spell node slots a :=
  { h with
    entries := fun slot => by
      rw [h.entries, if_neg List.not_mem_nil]
      split
      · next hslot => exact (hslots slot hslot).symm
      · rfl }

theorem space (piece : Piece) : Elements.Spell node [] [.space piece] := by
  constructor <;> simp [Mark.Plain, Shape.atoms, entriesIn, Element.Derived]

/-- An own token without comments that gives the node nothing. -/
theorem own (slot : Slot) {token : Token} (h : token.Sound) :
    Elements.Spell node [] [.own slot ⟨token, []⟩ false .nothing] := by
  have hplain : (⟨⟨token, []⟩, false⟩ : Mark).IsPlain := ⟨rfl, h, rfl⟩
  constructor <;> simp [Mark.Plain, Shape.atoms, entriesIn, Element.Derived, hplain, Node.ofComments]

/-- A name that becomes a child. -/
theorem name {slot : Slot} {text : String} (h : Token.IsName text.toList)
    (hentries : entriesIn slot node.children = [(slot, .ofName text)]) :
    Elements.Spell node [slot] [.own .comments ⟨.name text, []⟩ false (.name slot text)] where
  derived := by simp [Element.Derived]
  plain mark hmark := by
    obtain rfl := List.mem_singleton.1 hmark
    exact ⟨rfl, h, rfl⟩
  entries slot' := by
    by_cases hslot : slot' = slot
    · subst hslot
      rw [if_pos (List.mem_singleton_self _), hentries]
      simp [entriesIn, Node.ofComments]
    · simp [hslot, entriesIn, Node.ofComments, Ne.symm hslot]
  atoms := by simp [Shape.atoms]

/-- A token that gives the node its atom. -/
theorem literal {token : Token} (h : token.Sound) :
    Elements.Spell node [] [.own .comments ⟨token, []⟩ false (.atom node.atom)] := by
  have hplain : (⟨⟨token, []⟩, false⟩ : Mark).IsPlain := ⟨rfl, h, rfl⟩
  constructor <;> simp [Mark.Plain, Shape.atoms, entriesIn, Element.Derived, hplain, Node.ofComments]

/-- A child. -/
theorem child {slot : Slot} {goal : Goal} {c : Child}
    (hentries : entriesIn slot node.children = [(slot, c.node)])
    (h : Derives goal c.marks c.pieces c.node ∧ Mark.Plain c.marks) :
    Elements.Spell node [slot] [.child slot goal c] where
  derived := by simpa [Element.Derived] using h.1
  plain := by simpa using h.2
  entries slot' := by
    by_cases hslot : slot' = slot
    · subst hslot
      rw [if_pos (List.mem_singleton_self _), hentries]
      simp [entriesIn]
    · simp [hslot, entriesIn, Ne.symm hslot]
  atoms := by simp [Shape.atoms]

/-- Children of one slot, among other elements that give nothing. -/
theorem children {slot : Slot} {goal : Goal} {children : List Child} {elements : List Element}
    (hchildren : entriesIn slot node.children = children.map fun c => (slot, c.node))
    (hwritten : ∀ c ∈ children, Derives goal c.marks c.pieces c.node ∧ Mark.Plain c.marks)
    (hderived : (∀ c ∈ children, Derives goal c.marks c.pieces c.node) →
      ∀ element ∈ elements, element.Derived)
    (hmarks : ∀ mark ∈ Elements.marks elements, (∃ c ∈ children, mark ∈ c.marks) ∨ mark.IsPlain)
    (hentries : Elements.entries elements = children.map fun c => (slot, c.node))
    (hatoms : Shape.atoms (Elements.shapes elements) = []) :
    Elements.Spell node [slot] elements where
  derived := hderived fun c hc => (hwritten c hc).1
  plain mark hmark := by
    rcases hmarks mark hmark with ⟨c, hc, hmark⟩ | hplain
    · exact (hwritten c hc).2 mark hmark
    · exact hplain
  entries slot' := by
    rw [hentries, entriesIn_map]
    by_cases hslot : slot' = slot
    · subst hslot
      simp [hchildren]
    · simp [hslot, Ne.symm hslot]
  atoms := by simp [hatoms]

end Elements.Spell

/-! ### What parts need -/

/-- Whether a part can spell what a node has in its slots. -/
def Part.Suits (node : Node) : Part → Prop
  | gap _ => True
  | punct _ => True
  | bracket _ slot => entriesIn slot node.children = []
  | keyword _ => True
  | name slot rule => ∃ text, entriesIn slot node.children = [(slot, .ofName text)] ∧
    Token.IsName text.toList ∧ rule.refuses? text = none
  | spacedName slot => ∃ text, entriesIn slot node.children = [(slot, .ofName text)] ∧
    Token.IsName text.toList
  | literal l => ∃ token, l.read? token = some node.atom ∧ token.Sound
  | child slot goal => ∃ n, entriesIn slot node.children = [(slot, n)] ∧ goal.Writes n
  | opened _ slot goal => ∃ n, entriesIn slot node.children = [(slot, n)] ∧ goal.Writes n
  | listed slot goal _ allowEmpty =>
    (∀ n ∈ node.inSlot slot, goal.Writes n) ∧ (allowEmpty = false → node.inSlot slot ≠ [])
  | repeated slot goal _ => ∀ n ∈ node.inSlot slot, goal.Writes n
  | separated slot goal _ => (∀ n ∈ node.inSlot slot, goal.Writes n) ∧ node.inSlot slot ≠ []
  | juxtaposed _ => False
  | demand _ => True

/-- The children in a slot are the nodes in it. -/
theorem Node.entriesIn_children (node : Node) (slot : Slot) :
    entriesIn slot node.children = (node.inSlot slot).map (slot, ·) := by
  have hslot : ∀ entry ∈ entriesIn slot node.children, (slot, entry.2) = entry := by
    rintro ⟨slot', n⟩ hentry
    obtain rfl : slot' = slot := of_decide_eq_true (List.mem_filter.1 hentry).2
    rfl
  refine Eq.trans ?_ (List.map_map ..).symm
  exact ((List.map_congr_left hslot).trans (List.map_id _)).symm

/-- Nodes in a slot that a goal writes are those of children. -/
theorem Node.exists_children {node : Node} {slot : Slot} {goal : Goal}
    (h : ∀ n ∈ node.inSlot slot, goal.Writes n) :
    ∃ children : List Child, entriesIn slot node.children = (children.map fun c => (slot, c.node)) ∧
      children.map Child.node = node.inSlot slot ∧
      ∀ c ∈ children, Derives goal c.marks c.pieces c.node ∧ Mark.Plain c.marks := by
  have hexists (nodes : List Node) (hnodes : ∀ n ∈ nodes, goal.Writes n) :
      ∃ children : List Child, children.map Child.node = nodes ∧
        ∀ c ∈ children, Derives goal c.marks c.pieces c.node ∧ Mark.Plain c.marks := by
    induction nodes with
    | nil => exact ⟨[], rfl, by simp⟩
    | cons n nodes ih =>
      obtain ⟨c, rfl, hc⟩ := hnodes n List.mem_cons_self
      obtain ⟨children, rfl, hchildren⟩ := ih fun n hn => hnodes n (List.mem_cons_of_mem _ hn)
      exact ⟨c :: children, rfl, List.forall_mem_cons.2 ⟨hc, hchildren⟩⟩
  obtain ⟨children, hmap, hchildren⟩ := hexists _ h
  refine ⟨children, ?_, hmap, hchildren⟩
  rw [entriesIn_children, ← hmap, List.map_map]
  rfl

/-- Children with delimiters between them are spelled with words that have no comments. -/
private theorem Part.Suits.exists_separated {node : Node} {slot : Slot} {goal : Goal}
    {delimiter : Punctuator} (h : (Part.separated slot goal delimiter).Suits node) :
    ∃ elements, (Part.separated slot goal delimiter).Spells (Elements.shapes elements) ∧
      Elements.Spell node (Part.separated slot goal delimiter).slots elements := by
  obtain ⟨children, hentries, hnodes, hchildren⟩ := Node.exists_children h.1
  cases children with
  | nil => exact absurd hnodes.symm h.2
  | cons first others =>
    let rest := others.map fun c => ((⟨.punct delimiter, []⟩ : Word), c)
    have hspells : (Part.separated slot goal delimiter).Spells
        (Elements.shapes (Element.separated slot goal first rest)) := by
      have hrest : ∀ next ∈ rest, next.1.token = .punct delimiter := by simp [rest]
      rw [Element.shapes_separated slot goal first hrest]
      exact .separated slot goal delimiter _
    refine ⟨_, hspells, .children hentries hchildren (fun hd => ?_) (fun mark hmark => ?_) ?_
      (hspells.atoms_eq_nil rfl)⟩
    · refine Element.derived_separated slot (hd first List.mem_cons_self) fun next hnext => ?_
      obtain ⟨c, hc, rfl⟩ := List.mem_map.1 hnext
      exact hd c (List.mem_cons_of_mem _ hc)
    · -- A word is that of a child, or a delimiter.
      rw [Element.marks_separated] at hmark
      rcases List.mem_append.1 hmark with hmark | hmark
      · exact .inl ⟨first, List.mem_cons_self, hmark⟩
      · obtain ⟨next, hnext, hmark⟩ := List.mem_flatMap.1 hmark
        obtain ⟨c, hc, rfl⟩ := List.mem_map.1 hnext
        rcases List.mem_cons.1 hmark with rfl | hmark
        · exact .inr ⟨rfl, delimiter.sound, rfl⟩
        · exact .inl ⟨c, List.mem_cons_of_mem _ hc, hmark⟩
    · rw [Element.entries_separated, List.flatMap_map, List.map_cons]
      exact congrArg ((slot, first.node) :: ·) (List.map_eq_flatMap ..).symm

/-- A part spells what it suits. -/
theorem Part.Suits.exists_elements {node : Node} {part : Part} (h : part.Suits node) :
    ∃ elements, part.Spells (Elements.shapes elements) ∧ Elements.Spell node part.slots elements := by
  -- Every part is spelled in its plainest way: own tokens without comments, no spare delimiter.
  cases part with
  | gap g => exact ⟨[.space g.piece], .gap g, .space g.piece⟩
  | punct p => exact ⟨[.own .comments ⟨.punct p, []⟩ false .nothing], .punct p, .own .comments trivial⟩
  | bracket p slot =>
    refine ⟨[.own slot ⟨.punct p, []⟩ false .nothing], .bracket p slot,
      (Elements.Spell.own slot p.sound).of_empty fun s hs => ?_⟩
    rwa [List.mem_singleton.1 hs]
  | keyword k =>
    exact ⟨[.own .comments ⟨.name k.text, []⟩ false .nothing], .keyword k, .own .comments k.sound⟩
  | name slot rule =>
    obtain ⟨text, hentries, hname, hrule⟩ := h
    exact ⟨[.own .comments ⟨.name text, []⟩ false (.name slot text)], .name slot rule text hrule,
      .name hname hentries⟩
  | spacedName slot =>
    obtain ⟨text, hentries, hname⟩ := h
    exact ⟨[.space .hard, .own .comments ⟨.name text, []⟩ false (.name slot text)],
      .spacedName slot text, (Elements.Spell.space .hard).append (.name hname hentries) (by simp)⟩
  | literal l =>
    obtain ⟨token, hread, hsound⟩ := h
    exact ⟨[.own .comments ⟨token, []⟩ false (.atom node.atom)], .literal l token _ hread,
      .literal hsound⟩
  | child slot goal =>
    obtain ⟨n, hentries, c, rfl, hc⟩ := h
    exact ⟨[.child slot goal c], .child slot goal, .child hentries hc⟩
  | opened p slot goal =>
    obtain ⟨n, hentries, c, rfl, hc⟩ := h
    exact ⟨[.child slot goal c], .opened p slot goal, .child hentries hc⟩
  | listed slot goal close allowEmpty =>
    obtain ⟨children, hentries, hnodes, hchildren⟩ := Node.exists_children h.1
    have hspells : (Part.listed slot goal close allowEmpty).Spells (Elements.shapes
        (Element.listed slot goal (close = .braceClose) children)) := by
      rw [Element.shapes_listed]
      refine .listed slot goal close allowEmpty _ fun hlength => ?_
      cases allowEmpty with
      | true => rfl
      | false =>
        refine absurd ?_ (h.2 rfl)
        rw [← hnodes, List.length_eq_zero_iff.1 hlength, List.map_nil]
    refine ⟨_, hspells, .children hentries hchildren (fun hd => Element.derived_listed slot hd _)
      (fun mark hmark => ?_) (Element.entries_listed ..) (hspells.atoms_eq_nil rfl)⟩
    rw [Element.marks_listed] at hmark
    exact .inl (List.mem_flatMap.1 hmark)
  | repeated slot goal start =>
    obtain ⟨children, hentries, -, hchildren⟩ := Node.exists_children h
    have hspells : (Part.repeated slot goal start).Spells
        (Elements.shapes (Element.repeated slot goal children)) := by
      rw [Element.shapes_repeated]
      exact .repeated slot goal start _
    refine ⟨_, hspells, .children hentries hchildren (Element.derived_repeated slot)
      (fun mark hmark => ?_) (Element.entries_repeated ..) (hspells.atoms_eq_nil rfl)⟩
    rw [Element.marks_repeated] at hmark
    exact .inl (List.mem_flatMap.1 hmark)
  | separated slot goal delimiter => exact h.exists_separated
  | juxtaposed slot => exact h.elim
  | demand p => exact ⟨[], .demand p, .nil⟩

end GraphQLTree
