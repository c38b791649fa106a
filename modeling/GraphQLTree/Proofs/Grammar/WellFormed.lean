import GraphQLTree.Proofs.Comments.Dropped
import GraphQLTree.Proofs.Grammar.Granted

/-!
# Derivations of well-formed nodes

A well-formed node without comments is written by every goal that takes its kind
(`Node.WellFormed.writes`). Its children are all given by the items of its rule or are the description in
front of them (`Production.covers`), and its atom is given by an own token or is the one that the rule
starts with (`Node.Writable.atom_eq`).
-/

namespace GraphQLTree

/-! ### Atoms -/

/-- Nodes of a plain kind hold nothing besides their children. -/
theorem Kind.Holds.eq_none {kind : Kind} {atom : Atom} (h : kind.Holds atom)
    (hkind : kind.isPlain = true) : atom = .none := by
  cases atom with
  | none => rfl
  | text text => cases kind <;> first | (cases h; done) | cases hkind
  | string value block => rw [h.1] at hkind; cases hkind
  | operation o => rcases h with rfl | rfl <;> cases hkind
  | _ => rw [show kind = _ from h] at hkind; cases hkind

/-- Parts without atoms have no literal among them. -/
theorem SpellParts.not_mem_literal {parts : List Part} {shapes : List Shape} (h : SpellParts parts shapes)
    (hatoms : Shape.atoms shapes = []) (l : Literal) : .literal l ∉ parts := by
  intro hmem
  obtain ⟨a, ha, hsub⟩ := h.exists_of_mem hmem
  cases ha with
  | literal l token atom hread =>
    have hatom := Shape.mem_atoms (hsub List.mem_cons_self)
    rw [hatoms] at hatom
    cases hatom

/-- The atom of a node is given by a part of its rule or is the one that the rule starts with. -/
def Production.givesAtom (p : Production) : Bool :=
  (p.rule.items.any fun item => item matches .part (.literal _)) ||
    p.kind.isPlain && p.rule.start = .none

/-- The atom of every production is given by a part, but for those of queries without a keyword and of
directives that aren't repeatable. -/
theorem Production.givesAtom_or {p : Production} (hp : p.isReadable = true) :
    p.givesAtom = true ∨ p = .shorthand ∨ p = .of .directiveDefinition := by
  have hcheck := check (fun p => !p.isReadable || (p.givesAtom || (p = .shorthand ||
    p = .of .directiveDefinition))) (by decide) p
  simpa [hp] using hcheck

/-- The atom of a node is the last that its parts give, or the one that its rule starts with. -/
theorem Node.Writable.atom_eq {node : Node} (hnode : node.Writable) {p : Production}
    (hp : p.isReadable = true) (hkind : node.kind = p.kind)
    (hshorthand : p = .shorthand → node.isShorthand = true) {elements : List Element}
    (hparts : SpellParts (p.rule.items.flatMap (Item.partsFor node)) (Elements.shapes elements))
    {slots : List Slot} (hspell : Elements.Spell node slots elements) :
    (Shape.atom? (Elements.shapes elements)).getD p.rule.start = node.atom := by
  rw [Shape.atom?_eq]
  cases hlast : (Shape.atoms (Elements.shapes elements)).getLast? with
  | some a => exact hspell.atoms a (List.mem_of_getLast? hlast)
  | none =>
    have hliteral := hparts.not_mem_literal (List.getLast?_eq_none_iff.1 hlast)
    have hholds : p.kind.Holds node.atom := hkind ▸ hnode.holds
    rw [Option.getD_none]
    rcases Production.givesAtom_or hp with hgives | rfl | rfl
    · rcases Bool.or_eq_true_iff.1 hgives with hitem | hplain
      · obtain ⟨item, hitem, hmatches⟩ := List.any_eq_true.1 hitem
        split at hmatches
        · next l =>
          exact absurd (List.mem_flatMap.2 ⟨_, hitem, List.mem_singleton_self _⟩) (hliteral l)
        · cases hmatches
      · obtain ⟨hplain, hstart⟩ := Bool.and_eq_true_iff.1 hplain
        rw [of_decide_eq_true hstart, hholds.eq_none hplain]
    · have hquery := hshorthand rfl
      simp only [Node.isShorthand, GraphQLTree.isShorthand, Bool.and_eq_true, decide_eq_true_eq] at hquery
      exact hquery.1.1.1.symm
    · -- A repeatable directive would have a keyword that says so.
      have hrepeatable : ¬Presence.Met node .repeatable := by
        intro hmet
        refine hliteral .repeatable (List.mem_flatMap.2 ⟨.group (.keyword .repeatable) .repeatable
          [.gap .hard, .literal .repeatable], by decide, ?_⟩)
        rw [Item.partsFor, if_pos hmet]
        simp
      cases hatom : node.atom with
      | repeatable value =>
        cases value with
        | false => rfl
        | true => exact absurd hatom hrepeatable
      | _ =>
        rw [hatom] at hholds
        simp [Kind.Holds, Kind.isPlain, Kind.suitsText, Production.kind] at hholds

/-! ### Children -/

namespace Production

/-- The slots of a production's kind are for comments or are filled by its items, unless there is nothing
in them. -/
theorem covers {p : Production} (hp : p.isReadable = true) {slot : Slot} (hslot : slot ∈ p.kind.slots) :
    slot.holdsComments = true ∨ slot ∈ slotsOfItems p.items ∨
      p = .shorthand ∧ slot ∈ [.name, .variableDefinitions, .directives] := by
  have hcheck := check (fun p => !p.isReadable || p.kind.slots.all fun slot => slot.holdsComments ||
    (slot ∈ slotsOfItems p.items || (p = .shorthand &&
      slot ∈ [.name, .variableDefinitions, .directives]))) (by decide) p
  simp only [hp, Bool.not_true, Bool.false_or, List.all_eq_true, Bool.or_eq_true, Bool.and_eq_true,
    decide_eq_true_eq] at hcheck
  exact hcheck slot hslot

theorem slots_items (p : Production) : slotsOfItems p.items =
    (if p.rule.described then [.description] else []) ++ slotsOfItems p.rule.items := by
  rw [items]
  split <;> rfl

/-- No description stands in front of an extension. -/
theorem described_eq_false (p : Production) (h : p.demands = true) : p.rule.described = false := by
  have hcheck := check (fun p => !p.demands || !p.rule.described) (by decide) p
  simpa [h] using hcheck

/-- A description may stand in front of a node if its rule says so. -/
theorem grants_description (p : Production) (h : p.rule.described = true) :
    p.kind.grantsOne (some (.filled .description)) .description (Goal.kind .stringValue).takesAll =
      true := by
  have hcheck := check (fun p => !p.rule.described || p.kind.grantsOne (some (.filled .description))
    .description (Goal.kind .stringValue).takesAll) (by decide) p
  simpa [h] using hcheck

end Production

namespace Node.Writable

variable {node : Node} (hnode : node.Writable)
include hnode

/-- All children of a node stand in the slots of the items that it is written by. -/
theorem mem_slots {p : Production} (hp : p.isReadable = true) (hkind : node.kind = p.kind)
    (hshorthand : p = .shorthand → node.isShorthand = true) {entry : Slot × Node}
    (hentry : entry ∈ node.children) : entry.1 ∈ slotsOfItems p.items := by
  have hslot : entry.1 ∈ p.kind.slots := hkind ▸ mem_slots_of_arrange (hnode.arranged ▸ hentry)
  rcases Production.covers hp hslot with hcomments | hitems | ⟨hquery, hslot⟩
  · rw [hnode.bare entry hentry] at hcomments
    cases hcomments
  · exact hitems
  · have hcontains : (node.children.map Prod.fst).contains entry.1 = true :=
      List.contains_iff_mem.2 (List.mem_map_of_mem hentry)
    have hquery := hshorthand hquery
    simp only [isShorthand, GraphQLTree.isShorthand, Bool.and_eq_true, Bool.not_eq_true'] at hquery
    simp only [List.mem_cons, List.not_mem_nil, or_false] at hslot
    rcases hslot with hslot | hslot | hslot <;> rw [hslot] at hcontains <;> simp_all

/-- The description of a node is spelled in front of it. -/
theorem exists_description {p : Production} (hkind : node.kind = p.kind) :
    ∃ description : Option Child, (description.isSome = true → p.rule.described = true) ∧
      Elements.Spell node (if p.rule.described then [.description] else [])
        (descriptionElements description) := by
  cases hdescribed : p.rule.described with
  | false => exact ⟨none, by simp, .nil⟩
  | true =>
    by_cases hempty : node.inSlot .description = []
    · refine ⟨none, by simp, Elements.Spell.nil.of_empty fun slot hslot => ?_⟩
      obtain rfl := List.mem_singleton.1 hslot
      rw [entriesIn_children, hempty, List.map_nil]
    · have hgrants := p.grants_description hdescribed
      rw [← hkind] at hgrants
      obtain ⟨n, hentries, c, rfl, hc⟩ := hnode.exists_written
        (by rintro presence ⟨⟩; exact hempty) hgrants
      exact ⟨some c, fun _ => rfl, (Elements.Spell.child hentries hc).append (.space _) (by simp)⟩

/-- What spells all children of a node gives them in the order of the fields of its kind. -/
theorem arrange_entries {p : Production} (hp : p.isReadable = true) (hkind : node.kind = p.kind)
    (hshorthand : p = .shorthand → node.isShorthand = true) {elements : List Element}
    (hspell : Elements.Spell node (slotsOfItems p.items) elements) :
    arrange p.kind (Elements.entries elements) = node.children := by
  rw [hnode.arranged, hkind]
  refine arrange_congr p.kind fun slot => ?_
  rw [hspell.entries]
  split
  · rfl
  · next hslot =>
    refine (List.filter_eq_nil_iff.2 fun entry hentry heq => hslot ?_).symm
    rw [← of_decide_eq_true heq]
    exact hnode.mem_slots hp hkind hshorthand hentry

end Node.Writable

/-! ### Productions -/

theorem contains_map_fst {entries : List (Slot × Node)} {slot : Slot} :
    (entries.map Prod.fst).contains slot = !(entriesIn slot entries).isEmpty := by
  induction entries with
  | nil => rfl
  | cons entry entries ih =>
    rw [List.map_cons, List.contains_cons, ih, entriesIn, entriesIn, List.filter_cons]
    by_cases h : entry.1 = slot
    · simp [h]
    · simp [h, Ne.symm h]

/-- Elements give children in a slot that they spell if and only if the node has some. -/
theorem Elements.Spell.contains {node : Node} {slots : List Slot} {elements : List Element}
    (h : Elements.Spell node slots elements) {slot : Slot} (hslot : slot ∈ slots) :
    (Shape.slots (Elements.shapes elements)).contains slot =
      (node.children.map Prod.fst).contains slot := by
  rw [← Elements.map_slot_entries h.plain.bare, contains_map_fst, contains_map_fst, h.entries,
    if_pos hslot]

/-- A goal writes a node if it has a production of the node's kind. A query without a name, variables and
directives has two, of which the one without a keyword is taken. -/
theorem Node.Writable.writes_production {node : Node} (hnode : node.Writable) {goal : Goal}
    {p : Production} (hgoal : p ∈ goal.productions) (hp : p.isReadable = true)
    (hkind : node.kind = p.kind) (hshorthand : p = .shorthand → node.isShorthand = true)
    (hlong : p = .of .operationDefinition → node.isShorthand = false) : goal.Writes node := by
  obtain ⟨elements, hspells, hparts, hspell⟩ := hnode.exists_items
    (fun item hitem => hkind ▸ Production.isGranted hp item hitem) (Production.isOrderly hp).nodup_slots
  obtain ⟨description, hdescribed, hspelld⟩ := hnode.exists_description hkind
  have hall : Elements.Spell node (slotsOfItems p.items)
      (descriptionElements description ++ elements) := by
    rw [Production.slots_items]
    refine hspelld.append hspell fun slot hslot => ?_
    split at hslot
    · obtain rfl := List.mem_singleton.1 hslot
      exact (Production.isOrderly hp).not_mem_slots.2
    · cases hslot
  have hatom := hnode.atom_eq hp hkind hshorthand hparts hspell
  have hfinish : p.finish (descriptionElements description ++ elements) = node := by
    have hatoms : Shape.atom? (Elements.shapes (descriptionElements description ++ elements)) =
        Shape.atom? (Elements.shapes elements) := by
      rw [Elements.shapes_append, Shape.atom?_append]
      cases description <;> simp [descriptionElements, Shape.atom?]
    rw [Production.finish, hatoms, hatom, hnode.arrange_entries hp hkind hshorthand hall, ← hkind]
    cases node
    rfl
  -- What an extension adds is among the children of its own parts.
  have hdemand (hdemand : p.demands = true) : Shape.hasParts (Elements.shapes elements) = true := by
    have hextension : Language.isExtension node.kind = true := by
      rw [hkind, ← Production.demands_eq hp, hdemand]
    obtain ⟨entry, hentry, hname, hcomments⟩ := hnode.adds hextension
    have hslot := hnode.mem_slots hp hkind hshorthand hentry
    rw [Production.slots_items, p.described_eq_false hdemand, if_neg (by simp), List.nil_append] at hslot
    have hmem : entry.1 ∈ Shape.slots (Elements.shapes elements) := by
      rw [← List.contains_iff_mem, hspell.contains hslot, List.contains_iff_mem]
      exact List.mem_map_of_mem hentry
    exact List.any_eq_true.2 ⟨entry.1, hmem, by simp [hname, hcomments]⟩
  have hquery (hp' : p = .of .operationDefinition) :
      Shape.isShorthand (Elements.shapes elements) = false := by
    have hquery := hlong hp'
    subst hp'
    rw [Node.isShorthand, GraphQLTree.isShorthand, ← hatom, ← hspell.contains (by decide),
      ← hspell.contains (by decide), ← hspell.contains (by decide)] at hquery
    exact hquery
  have hdescription (c : Child) (hc : c ∈ description) :
      Derives (.kind .stringValue) c.marks c.pieces c.node := by
    obtain rfl := hc
    exact hspelld.derived _ List.mem_cons_self
  have hderives := @Derives.production goal p description elements hgoal hp hdescribed hspells hdemand
    hquery hdescription fun slot subgoal c hc => hspell.derived _ hc
  rw [hfinish] at hderives
  exact ⟨⟨_, _, _⟩, rfl, hderives, hall.plain⟩

/-- A type with an exclamation mark is written as the type in it and the mark. -/
theorem Node.Writable.writes_nonNull {node : Node} (hnode : node.Writable)
    (hkind : node.kind = .nonNullType) : Goal.type.Writes node := by
  have hgrants : Kind.nonNullType.grantsOne none .type (· = .nullableType) = true := by decide
  have hnone : ∀ presence ∈ (none : Option Presence), presence.Met node := by simp
  obtain ⟨n, hentries, hmem, content, haccepts, hcontent⟩ := hnode.exists_one hnone (hkind ▸ hgrants)
  obtain rfl := of_decide_eq_true hcontent
  have hnullable : ∀ kind ∈ Kind.all, Content.nullableType.accepts kind = true →
      Goal.type.takes kind = true ∧ kind ≠ .nonNullType := by decide
  obtain ⟨htakes, hne⟩ := hnullable n.kind n.kind.mem_all haccepts
  obtain ⟨c, rfl, hderives, hplain⟩ := hnode.writes _ hmem .type htakes
  have hcomments : entriesIn .comments node.children = [] :=
    List.filter_eq_nil_iff.2 fun entry hentry hslot => by
      have hbare := hnode.bare entry hentry
      rw [of_decide_eq_true hslot] at hbare
      cases hbare
  have hchildren : node.children = [(.type, c.node)] := by
    rw [hnode.arranged, hkind, arrange]
    change entriesIn .comments node.children ++ (entriesIn .type node.children ++ []) = _
    rw [hcomments, hentries]
    rfl
  have hatom : node.atom = .none := hnode.holds.eq_none (hkind ▸ rfl)
  have hmark : Mark.Plain [⟨⟨.punct .exclamation, []⟩, false⟩] := fun mark hmark =>
    List.mem_singleton.1 hmark ▸ ⟨rfl, Punctuator.exclamation.sound, rfl⟩
  have hnode : .mk .nonNullType .none (ofComments .comments [] ++ [(.type, c.node)]) = node := by
    rw [← hkind, ← hatom]
    exact (congrArg (Node.mk node.kind node.atom) hchildren.symm).trans (by cases node; rfl)
  exact ⟨⟨_, _, _⟩, hnode, hderives.nonNull [] hne, Mark.plain_append.2 ⟨hplain, hmark⟩⟩

/-- A node whose children can be written is written by every goal that takes its kind. -/
theorem Node.Writable.writes_self {node : Node} (hnode : node.Writable) {goal : Goal}
    (h : goal.takes node.kind = true) : goal.Writes node := by
  rcases Bool.or_eq_true_iff.1 h with h | h
  · obtain ⟨hproduction, hforms⟩ := Bool.and_eq_true_iff.1 h
    obtain ⟨p, hgoal, hp⟩ := List.any_eq_true.1 hproduction
    obtain ⟨hp, hkind⟩ := Bool.and_eq_true_iff.1 hp
    have hkind := (of_decide_eq_true hkind).symm
    by_cases hoperation : node.kind = .operationDefinition
    · -- Which of the two forms an operation is written in is told by the node.
      simp only [hoperation, ne_eq, not_true_eq_false, decide_false, Bool.false_or,
        Bool.and_eq_true, List.contains_iff_mem] at hforms
      cases hquery : node.isShorthand with
      | true =>
        exact hnode.writes_production hforms.1 rfl hoperation (fun _ => hquery) (by simp)
      | false =>
        exact hnode.writes_production hforms.2 rfl hoperation (by simp) (fun _ => hquery)
    · refine hnode.writes_production hgoal hp hkind ?_ ?_ <;>
        rintro rfl <;> exact absurd hkind hoperation
  · obtain ⟨hgoal, hkind⟩ := Bool.and_eq_true_iff.1 h
    obtain rfl := of_decide_eq_true hgoal
    exact hnode.writes_nonNull (of_decide_eq_true hkind)

/-! ### Well-formed nodes -/

namespace Node

/-- A node has no comments if it stands without comments itself and all its children do. -/
theorem uncommented_eq_self {node : Node} (h : node.uncommented = node) :
    ∀ entry ∈ node.children, entry.1.holdsComments = false ∧ entry.2.uncommented = entry.2 := by
  obtain ⟨kind, atom, children⟩ := node
  rw [uncommented] at h
  have hchildren : uncommentedChildren children = children := by injection h
  rw [uncommentedChildren_eq] at hchildren
  have hbare : ∀ entry ∈ children, (!entry.1.holdsComments) = true := by
    rw [← List.length_filter_eq_length_iff]
    simpa using congrArg List.length hchildren
  rw [List.filter_eq_self.2 hbare] at hchildren
  have hself := List.map_inj_left.1 (hchildren.trans (List.map_id children).symm)
  exact fun entry hentry =>
    ⟨by simpa using hbare entry hentry, congrArg Prod.snd (hself entry hentry)⟩

/-- A well-formed name is made from its text. -/
theorem WellFormed.eq_ofName {node : Node} (h : node.WellFormed) (hkind : node.kind = .name) :
    ∃ text : String, node = .ofName text ∧ Token.IsName text.toList := by
  have hchildren : node.children = [] := by
    rw [h.conforms.arranged, hkind]
    rfl
  obtain ⟨kind, atom, children⟩ := node
  obtain rfl : kind = .name := hkind
  obtain rfl : children = [] := hchildren
  have hholds : Kind.name.Holds atom := h.conforms.holds
  cases atom with
  | text text => exact ⟨text, rfl, of_decide_eq_true hholds⟩
  | _ => simp [Kind.Holds, Kind.isPlain] at hholds

/-- A well-formed node without comments is written by every goal that takes its kind. -/
theorem WellFormed.writes {node : Node} (h : node.WellFormed) (hbare : node.uncommented = node)
    {goal : Goal} (hgoal : goal.takes node.kind = true) : goal.Writes node := by
  induction h generalizing goal with
  | @intro node hconforms hchildren ih =>
    have hbare := uncommented_eq_self hbare
    have hnode : node.Writable :=
      { hconforms with
        bare := fun entry hentry => (hbare entry hentry).1
        names := fun entry hentry => (hchildren entry hentry).eq_ofName
        writes := fun entry hentry goal => ih entry hentry (hbare entry hentry).2 }
    exact hnode.writes_self hgoal

end Node

end GraphQLTree
