import GraphQLTree.Proofs.Grammar.Spelling
import GraphQLTree.Proofs.Token.Significant

/-!
# What the schema grants

What the parts of a rule need to be spelled is **granted** by the schema and by the other conditions on
well-formed nodes, which is checked rule by rule (`Production.isGranted`): the slot of a name has one
name, children are nodes that the goal of their part **takes**, and so on. So the items of a rule spell a
node that conforms and whose children can be written (`Node.Writable.exists_items`).
-/

namespace GraphQLTree

/-! ### What is granted -/

/-- Whether a goal can derive nodes of a kind, and operations in both of their forms. -/
def Goal.takes (goal : Goal) (kind : Kind) : Bool :=
  goal.productions.any (fun p => p.isReadable && p.kind = kind) &&
      (kind ≠ .operationDefinition || goal.productions.contains .shorthand &&
        goal.productions.contains (.of .operationDefinition)) ||
    goal = .type && kind = .nonNullType

/-- Whether a goal can derive all nodes that fit a content. -/
def Goal.takesAll (goal : Goal) (content : Content) : Bool :=
  Kind.all.all fun kind => !content.accepts kind || goal.takes kind

/-- Whether a node has what a group of parts is there for. -/
def Presence.Met (node : Node) : Presence → Prop
  | filled slot => node.inSlot slot ≠ []
  | repeatable => node.atom = .repeatable true

instance (node : Node) : DecidablePred (Presence.Met node)
  | .filled slot => inferInstanceAs (Decidable (node.inSlot slot ≠ []))
  | .repeatable => inferInstanceAs (Decidable (node.atom = .repeatable true))

namespace Kind

/-- Whether nodes of a kind have one child in a slot when a presence is met, and its content passes a
test. -/
def grantsOne (kind : Kind) (presence : Option Presence) (slot : Slot) (test : Content → Bool) : Bool :=
  (kind.fieldAt? slot).any fun field =>
    (field.arity = .one || field.arity = .optional && presence = some (.filled slot)) &&
      test field.content

/-- Whether the content of the children in a slot passes a test, and whether there have to be some. -/
def grantsSome (kind : Kind) (allowEmpty : Bool) (slot : Slot) (test : Content → Bool) : Bool :=
  (kind.fieldAt? slot).any fun field =>
    test field.content && (allowEmpty || kind.filledSlot? = some slot)

end Kind

/-- Whether the atom of a node of a kind is one that a literal gives. -/
def Literal.isGranted (kind : Kind) (presence : Option Presence) : Literal → Bool
  | int => kind = .intValue
  | float => kind = .floatValue
  | string => kind = .stringValue
  | boolean => kind = .booleanValue
  | enumValue => kind = .enumValue
  | operation => kind = .operationDefinition || kind = .operationTypeDefinition
  | repeatable => presence = some .repeatable
  | executable => kind = .executableLocation
  | typeSystem => kind = .typeSystemLocation

/-- Whether well-formed nodes of a kind have what a part gives, when a presence is met. -/
def Part.isGranted (kind : Kind) (presence : Option Presence) : Part → Bool
  | gap _ => true
  | punct _ => true
  | bracket _ slot => slot.holdsComments
  | keyword _ => true
  | name slot rule => kind.grantsOne presence slot (· = .kind .name) &&
    rule.except.all fun k => slot = .name && k ∈ kind.reserved
  | spacedName slot => kind.grantsOne presence slot (· = .kind .name)
  | literal l => l.isGranted kind presence
  | child slot goal => kind.grantsOne presence slot goal.takesAll
  | opened _ slot goal => kind.grantsOne presence slot goal.takesAll
  | listed slot goal _ allowEmpty => kind.grantsSome allowEmpty slot goal.takesAll
  | repeated slot goal _ => kind.grantsSome true slot goal.takesAll
  | separated slot goal _ => kind.grantsSome false slot goal.takesAll
  | juxtaposed _ => false
  | demand _ => true

/-- Whether well-formed nodes of a kind have what an item gives. A group gives nothing unless what it is
there for is present. -/
def Item.isGranted (kind : Kind) : Item → Bool
  | part p => p.isGranted kind none
  | group _ presence parts => parts.all fun part =>
    part.isGranted kind (some presence) && part.slots.all fun slot => presence = .filled slot

theorem Production.isGranted {p : Production} (hp : p.isReadable = true) :
    ∀ item ∈ p.rule.items, item.isGranted p.kind = true := by
  have hcheck := check (fun p => !p.isReadable || p.rule.items.all (Item.isGranted p.kind))
    (by decide) p
  simpa [hp] using hcheck

/-! ### What parts need -/

/-- Whether a node conforms, has no comments, and its children can be written. -/
structure Node.Writable (node : Node) : Prop extends node.Conforms where
  bare : ∀ entry ∈ node.children, entry.1.holdsComments = false
  names : ∀ entry ∈ node.children, entry.2.kind = .name →
    ∃ text : String, entry.2 = .ofName text ∧ Token.IsName text.toList
  writes : ∀ entry ∈ node.children, ∀ goal : Goal, goal.takes entry.2.kind = true →
    goal.Writes entry.2

theorem Goal.takes_of_takesAll {goal : Goal} {content : Content} (h : goal.takesAll content = true)
    {kind : Kind} (hkind : content.accepts kind = true) : goal.takes kind = true := by
  simpa [hkind] using List.all_eq_true.1 h kind kind.mem_all

theorem Node.mem_inSlot {node : Node} {slot : Slot} {n : Node} :
    n ∈ node.inSlot slot ↔ (slot, n) ∈ node.children := by
  simp [inSlot]

theorem Kind.of_fieldAt {kind : Kind} {slot : Slot} {field : Field}
    (h : kind.fieldAt? slot = some field) : field ∈ kind.fields ∧ field.slot = slot :=
  ⟨List.mem_of_find?_eq_some h, by simpa using List.find?_some h⟩

namespace Node.Writable

variable {node : Node} (hnode : node.Writable)
include hnode

/-- A node has just one child where one is granted. -/
theorem exists_one {presence : Option Presence} (hpresence : ∀ p ∈ presence, p.Met node) {slot : Slot}
    {test : Content → Bool} (h : node.kind.grantsOne presence slot test = true) :
    ∃ n, entriesIn slot node.children = [(slot, n)] ∧ (slot, n) ∈ node.children ∧
      ∃ content : Content, content.accepts n.kind = true ∧ test content = true := by
  obtain ⟨field, hfield, h⟩ := (Option.any_eq_true _ _).1 h
  obtain ⟨harity, htest⟩ := Bool.and_eq_true_iff.1 h
  obtain ⟨hmem, rfl⟩ := Kind.of_fieldAt hfield
  have hlength : (node.inSlot field.slot).length = 1 := by
    have hcount := hnode.count field hmem
    rcases Bool.or_eq_true_iff.1 harity with harity | harity
    · rwa [of_decide_eq_true harity] at hcount
    · obtain ⟨harity, hfilled⟩ := Bool.and_eq_true_iff.1 harity
      rw [of_decide_eq_true harity] at hcount
      exact Nat.le_antisymm hcount
        (List.length_pos_iff.2 (hpresence _ (of_decide_eq_true hfilled)))
  obtain ⟨n, hn⟩ := List.length_eq_one_iff.1 hlength
  have hslot : n ∈ node.inSlot field.slot := hn ▸ List.mem_singleton_self n
  refine ⟨n, ?_, mem_inSlot.1 hslot, field.content, hnode.content field hmem n hslot, htest⟩
  rw [entriesIn_children, hn]
  rfl

/-- A node has just one name where one is granted. -/
theorem exists_name {presence : Option Presence} (hpresence : ∀ p ∈ presence, p.Met node) {slot : Slot}
    (h : node.kind.grantsOne presence slot (· = .kind .name) = true) :
    ∃ text : String, entriesIn slot node.children = [(slot, .ofName text)] ∧
      (slot, .ofName text) ∈ node.children ∧ Token.IsName text.toList := by
  obtain ⟨n, hentries, hmem, content, hkind, hcontent⟩ := hnode.exists_one hpresence h
  obtain rfl := of_decide_eq_true hcontent
  obtain ⟨text, rfl, hname⟩ := hnode.names _ hmem (of_decide_eq_true hkind).symm
  exact ⟨text, hentries, hmem, hname⟩

/-- A node has just one child that a goal writes where one is granted. -/
theorem exists_written {presence : Option Presence} (hpresence : ∀ p ∈ presence, p.Met node)
    {slot : Slot} {goal : Goal} (h : node.kind.grantsOne presence slot goal.takesAll = true) :
    ∃ n, entriesIn slot node.children = [(slot, n)] ∧ goal.Writes n := by
  obtain ⟨n, hentries, hmem, content, hkind, htakes⟩ := hnode.exists_one hpresence h
  exact ⟨n, hentries, hnode.writes _ hmem goal (Goal.takes_of_takesAll htakes hkind)⟩

/-- A goal writes all children in a slot where that is granted, and there are some if need be. -/
theorem forall_written {allowEmpty : Bool} {slot : Slot} {goal : Goal}
    (h : node.kind.grantsSome allowEmpty slot goal.takesAll = true) :
    (∀ n ∈ node.inSlot slot, goal.Writes n) ∧ (allowEmpty = false → node.inSlot slot ≠ []) := by
  obtain ⟨field, hfield, h⟩ := (Option.any_eq_true _ _).1 h
  obtain ⟨htakes, hsome⟩ := Bool.and_eq_true_iff.1 h
  obtain ⟨hmem, rfl⟩ := Kind.of_fieldAt hfield
  refine ⟨fun n hn => ?_, fun hempty => ?_⟩
  · exact hnode.writes _ (mem_inSlot.1 hn) goal
      (Goal.takes_of_takesAll htakes (hnode.content field hmem n hn))
  · exact hnode.filled _ (by simpa [hempty] using hsome)

end Node.Writable

/-- A token that is all of a text is sound. -/
theorem Token.sound_of_singleton {text : String} {token : Token}
    (h : ((tokenize text).1 = [token] && (tokenize text).2.isNone) = true)
    (htoken : token.isComment = false) : token.Sound := by
  obtain ⟨htokens, hnone⟩ := Bool.and_eq_true_iff.1 h
  refine sound_of_tokenize (Option.isNone_iff_eq_none.1 hnone) token ?_
  rw [of_decide_eq_true htokens]
  simp [significant, htoken]

/-- Where a literal is granted, a sound token gives the atom of a node. -/
theorem Literal.exists_token {l : Literal} {kind : Kind} {presence : Option Presence}
    (h : l.isGranted kind presence = true) {atom : Atom} (hholds : kind.Holds atom)
    (hpresence : presence = some .repeatable → atom = .repeatable true) :
    ∃ token : Token, l.read? token = some atom ∧ token.Sound := by
  -- A literal is granted to one kind of node only, and that kind says what its atom holds.
  cases l with
  | int =>
    obtain rfl := of_decide_eq_true h
    cases atom with
    | text text => exact ⟨.int text, rfl, Token.sound_of_singleton hholds rfl⟩
    | _ => simp [Kind.Holds, Kind.isPlain] at hholds
  | float =>
    obtain rfl := of_decide_eq_true h
    cases atom with
    | text text => exact ⟨.float text, rfl, Token.sound_of_singleton hholds rfl⟩
    | _ => simp [Kind.Holds, Kind.isPlain] at hholds
  | string =>
    obtain rfl := of_decide_eq_true h
    cases atom with
    | string value block =>
      cases block with
      | false => exact ⟨.string value, rfl, trivial⟩
      | true => exact ⟨.blockString value, rfl, hholds.2 rfl⟩
    | _ => simp [Kind.Holds, Kind.isPlain, Kind.suitsText] at hholds
  | boolean =>
    obtain rfl := of_decide_eq_true h
    cases atom with
    | boolean value =>
      cases value with
      | false => exact ⟨_, read_of_gives .falseValue, Keyword.sound _⟩
      | true => exact ⟨_, read_of_gives .trueValue, Keyword.sound _⟩
    | _ => simp [Kind.Holds, Kind.isPlain, Kind.suitsText] at hholds
  | enumValue =>
    obtain rfl := of_decide_eq_true h
    cases atom with
    | text text =>
      obtain ⟨hname, hreserved⟩ := Bool.and_eq_true_iff.1 hholds
      have hname : Token.IsName text.toList := of_decide_eq_true hname
      have hreserved : ∀ k ∈ [Keyword.trueValue, .falseValue, .nullValue], text ≠ k.text :=
        fun k hk => of_decide_eq_true (List.all_eq_true.1 hreserved k hk)
      exact ⟨_, read_of_gives (.enumValue text hreserved), hname⟩
    | _ => simp [Kind.Holds, Kind.isPlain] at hholds
  | operation =>
    have hoperation : ∃ operation, atom = .operation operation := by
      rcases Bool.or_eq_true_iff.1 h with h | h <;> obtain rfl := of_decide_eq_true h <;>
        cases atom <;> simp [Kind.Holds, Kind.isPlain, Kind.suitsText] at hholds ⊢
    obtain ⟨operation, rfl⟩ := hoperation
    have hname : Token.IsName operation.text.toList := by cases operation <;> decide
    exact ⟨_, read_of_gives (.operationType operation), hname⟩
  | repeatable =>
    obtain rfl := hpresence (of_decide_eq_true h)
    exact ⟨_, read_of_gives .repeatable, Keyword.sound _⟩
  | executable =>
    obtain rfl := of_decide_eq_true h
    cases atom with
    | executable location =>
      have hname : Token.IsName location.text.toList := by cases location <;> decide
      exact ⟨_, read_of_gives (.executable location), hname⟩
    | _ => simp [Kind.Holds, Kind.isPlain, Kind.suitsText] at hholds
  | typeSystem =>
    obtain rfl := of_decide_eq_true h
    cases atom with
    | typeSystem location =>
      have hname : Token.IsName location.text.toList := by cases location <;> decide
      exact ⟨_, read_of_gives (.typeSystem location), hname⟩
    | _ => simp [Kind.Holds, Kind.isPlain, Kind.suitsText] at hholds

namespace Node.Writable

variable {node : Node} (hnode : node.Writable)
include hnode

/-- A node suits what is granted. -/
theorem suits {presence : Option Presence} (hpresence : ∀ p ∈ presence, p.Met node) {part : Part}
    (h : part.isGranted node.kind presence = true) : part.Suits node := by
  cases part with
  | gap g => trivial
  | punct p => trivial
  | bracket p slot =>
    refine List.filter_eq_nil_iff.2 fun entry hentry hslot => ?_
    have hbare := hnode.bare entry hentry
    rw [of_decide_eq_true hslot, show slot.holdsComments = true from h] at hbare
    cases hbare
  | keyword k => trivial
  | name slot rule =>
    obtain ⟨hone, hrule⟩ := Bool.and_eq_true_iff.1 h
    obtain ⟨text, hentries, hmem, hname⟩ := hnode.exists_name hpresence hone
    refine ⟨text, hentries, hname, (rule.refuses_eq_none_iff text).2 fun k hk => ?_⟩
    obtain ⟨hslot, hreserved⟩ := Bool.and_eq_true_iff.1 (List.all_eq_true.1 hrule k hk)
    obtain rfl := of_decide_eq_true hslot
    exact hnode.named _ (mem_inSlot.2 hmem) k (of_decide_eq_true hreserved)
  | spacedName slot =>
    obtain ⟨text, hentries, -, hname⟩ := hnode.exists_name hpresence h
    exact ⟨text, hentries, hname⟩
  | literal l =>
    refine l.exists_token h hnode.holds fun hrepeatable => ?_
    exact hpresence .repeatable hrepeatable
  | child slot goal => exact hnode.exists_written hpresence h
  | opened p slot goal => exact hnode.exists_written hpresence h
  | listed slot goal close allowEmpty => exact hnode.forall_written h
  | repeated slot goal start => exact (hnode.forall_written h).1
  | separated slot goal delimiter =>
    obtain ⟨hwrites, hsome⟩ := hnode.forall_written h
    exact ⟨hwrites, hsome rfl⟩
  | juxtaposed slot => cases h
  | demand p => trivial

/-- Parts that a node suits are spelled one after the other. -/
theorem exists_parts {presence : Option Presence} (hpresence : ∀ p ∈ presence, p.Met node)
    {parts : List Part} (h : ∀ part ∈ parts, part.isGranted node.kind presence = true)
    (hnodup : (parts.flatMap Part.slots).Nodup) :
    ∃ elements, SpellParts parts (Elements.shapes elements) ∧
      Elements.Spell node (parts.flatMap Part.slots) elements := by
  induction parts with
  | nil => exact ⟨[], .nil, .nil⟩
  | cons part parts ih =>
    obtain ⟨hpart, hparts⟩ := List.forall_mem_cons.1 h
    rw [List.flatMap_cons, List.nodup_append] at hnodup
    obtain ⟨-, hnodup, hdisjoint⟩ := hnodup
    obtain ⟨a, ha, hspella⟩ := (hnode.suits hpresence hpart).exists_elements
    obtain ⟨b, hb, hspellb⟩ := ih hparts hnodup
    refine ⟨a ++ b, ?_, hspella.append hspellb fun slot hslot hslot' => hdisjoint slot hslot slot hslot' rfl⟩
    rw [Elements.shapes_append]
    exact .cons ha hb

end Node.Writable

/-- The parts of an item that are written for a node. -/
def Item.partsFor (node : Node) : Item → List Part
  | part p => [p]
  | group _ presence parts => if presence.Met node then parts else []

namespace Node.Writable

variable {node : Node} (hnode : node.Writable)
include hnode

/-- What is granted of an item is spelled. -/
theorem exists_item {item : Item} (h : item.isGranted node.kind = true) (hnodup : item.slots.Nodup) :
    ∃ elements, item.Spells (Elements.shapes elements) ∧
      SpellParts (item.partsFor node) (Elements.shapes elements) ∧
      Elements.Spell node item.slots elements := by
  cases item with
  | part p =>
    have hnone : ∀ presence ∈ (none : Option Presence), presence.Met node := by simp
    obtain ⟨elements, hspells, hspell⟩ := (hnode.suits hnone h).exists_elements
    refine ⟨elements, .part hspells, ?_, ?_⟩
    · have hparts := SpellParts.cons hspells .nil
      rwa [List.append_nil] at hparts
    · simpa [Item.slots, Item.parts] using hspell
  | group guard presence parts =>
    have hparts (part : Part) (hpart : part ∈ parts) :=
      Bool.and_eq_true_iff.1 (List.all_eq_true.1 h part hpart)
    by_cases hmet : presence.Met node
    · have hsome : ∀ presence' ∈ some presence, presence'.Met node := by
        rintro presence' ⟨⟩
        exact hmet
      obtain ⟨elements, hspells, hspell⟩ :=
        hnode.exists_parts hsome (fun part hpart => (hparts part hpart).1) hnodup
      refine ⟨elements, .take guard presence hspells, ?_, hspell⟩
      rwa [Item.partsFor, if_pos hmet]
    · refine ⟨[], .skip guard presence parts, ?_, Elements.Spell.nil.of_empty fun slot hslot => ?_⟩
      · rw [Item.partsFor, if_neg hmet]
        exact .nil
      · obtain ⟨part, hpart, hslot⟩ := List.mem_flatMap.1 hslot
        have hpresence := of_decide_eq_true (List.all_eq_true.1 (hparts part hpart).2 slot hslot)
        subst hpresence
        rw [entriesIn_children, Decidable.not_not.1 hmet, List.map_nil]

/-- What is granted of items is spelled one after the other. -/
theorem exists_items {items : List Item} (h : ∀ item ∈ items, item.isGranted node.kind = true)
    (hnodup : (slotsOfItems items).Nodup) :
    ∃ elements, SpellItems items (Elements.shapes elements) ∧
      SpellParts (items.flatMap (Item.partsFor node)) (Elements.shapes elements) ∧
      Elements.Spell node (slotsOfItems items) elements := by
  induction items with
  | nil => exact ⟨[], .nil, .nil, .nil⟩
  | cons item items ih =>
    obtain ⟨hitem, hitems⟩ := List.forall_mem_cons.1 h
    rw [slotsOfItems, List.flatMap_cons, List.nodup_append] at hnodup
    obtain ⟨hnodupa, hnodupb, hdisjoint⟩ := hnodup
    obtain ⟨a, ha, hpartsa, hspella⟩ := hnode.exists_item hitem hnodupa
    obtain ⟨b, hb, hpartsb, hspellb⟩ := ih hitems hnodupb
    refine ⟨a ++ b, ?_, ?_, hspella.append hspellb fun slot hslot hslot' => hdisjoint slot hslot slot hslot' rfl⟩
    · rw [Elements.shapes_append]
      exact .cons ha hb
    · rw [Elements.shapes_append, List.flatMap_cons]
      exact hpartsa.append hpartsb

end Node.Writable

end GraphQLTree
