import GraphQLTree.Grammar.Reader
import GraphQLTree.Proofs.Layout.Piece

/-!
# Shapes

A **shape** is what a rule says about one step of a node's text: a space, an own token or a child.
Every part of a rule **spells** some lists of shapes, whatever the comments of the tokens and the
children are, and so do items one after the other. Some own tokens are **spare**: they may stand in a
text that is read but are not written, such as a delimiter before the first of some children.
-/

namespace GraphQLTree

/-- What an own token gives the node besides its comments. -/
inductive Gift where
  | nothing
  /-- A name in a slot. -/
  | name (slot : Slot) (text : String)
  | atom (atom : Atom)
  deriving DecidableEq

namespace Gift

/-- The children that a gift is. -/
def entries : Gift → List (Slot × Node)
  | name slot text => [(slot, .ofName text)]
  | _ => []

/-- The atom that a gift is. -/
def atom? : Gift → Option Atom
  | atom a => some a
  | _ => none

end Gift

/-- One step of a node's text. -/
inductive Shape where
  | space (piece : Piece)
  /-- An own token, whose comments go to a slot. -/
  | own (slot : Slot) (token : Token) (spare : Bool) (gift : Gift)
  | child (slot : Slot) (goal : Goal)
  deriving DecidableEq

namespace Shape

/-- An own token that gives the node only its comments. -/
def plain (token : Token) : Shape :=
  own .comments token false .nothing

/-- A delimiter that is read but not written. -/
def spare (p : Punctuator) : Shape :=
  own .comments (.punct p) true .nothing

/-- Whether a shape is written. -/
def isWritten : Shape → Bool
  | own _ _ spare _ => !spare
  | _ => true

/-- The same steps so many times. -/
def times (step : List Shape) : Nat → List Shape
  | 0 => []
  | n + 1 => step ++ times step n

/-- The steps of a list of so many children, with spaces around them if it is padded. -/
def listed (slot : Slot) (goal : Goal) (padded : Bool) : Nat → List Shape
  | 0 => []
  | n + 1 =>
    let padding := if padded then [space .soft] else []
    padding ++ child slot goal :: times [space .comma, child slot goal] n ++ padding

/-- The steps of so many children with a space before each. -/
def repeated (slot : Slot) (goal : Goal) (n : Nat) : List Shape :=
  times [space .soft, child slot goal] n

/-- The steps of children with a delimiter before all but the first of them. -/
def separated (slot : Slot) (goal : Goal) (delimiter : Punctuator) (n : Nat) : List Shape :=
  child slot goal ::
    times [space .soft, plain (.punct delimiter), space .soft, child slot goal] n

end Shape

/-- A gap as a piece. -/
def Gap.piece : Gap → Piece
  | soft => .soft
  | hard => .hard

/-- The shapes that a part spells. Named types that are only written are never read. -/
inductive Part.Spells : Part → List Shape → Prop
  | gap (g : Gap) : Spells (.gap g) [.space g.piece]
  | punct (p : Punctuator) : Spells (.punct p) [.plain (.punct p)]
  | bracket (p : Punctuator) (slot : Slot) :
    Spells (.bracket p slot) [.own slot (.punct p) false .nothing]
  | keyword (k : Keyword) : Spells (.keyword k) [.plain (.name k.text)]
  | name (slot : Slot) (rule : NameRule) (text : String) (h : rule.refuses? text = none) :
    Spells (.name slot rule) [.own .comments (.name text) false (.name slot text)]
  | spacedName (slot : Slot) (text : String) :
    Spells (.spacedName slot)
      [.space .hard, .own .comments (.name text) false (.name slot text)]
  | literal (l : Literal) (token : Token) (atom : Atom) (h : l.read? token = some atom) :
    Spells (.literal l) [.own .comments token false (.atom atom)]
  | child (slot : Slot) (goal : Goal) : Spells (.child slot goal) [.child slot goal]
  | opened (p : Punctuator) (slot : Slot) (goal : Goal) :
    Spells (.opened p slot goal) [.child slot goal]
  | listed (slot : Slot) (goal : Goal) (close : Punctuator) (allowEmpty : Bool) (n : Nat)
    (h : n = 0 → allowEmpty = true) :
    Spells (.listed slot goal close allowEmpty) (Shape.listed slot goal (close = .braceClose) n)
  | repeated (slot : Slot) (goal : Goal) (start : Punctuator) (n : Nat) :
    Spells (.repeated slot goal start) (Shape.repeated slot goal n)
  | separated (slot : Slot) (goal : Goal) (delimiter : Punctuator) (n : Nat) :
    Spells (.separated slot goal delimiter) (Shape.separated slot goal delimiter n)
  | spared (slot : Slot) (goal : Goal) (delimiter : Punctuator) (n : Nat) :
    Spells (.separated slot goal delimiter)
      (.spare delimiter :: Shape.separated slot goal delimiter n)
  | demand (p : Punctuator) : Spells (.demand p) []

/-- The shapes that parts spell one after the other. -/
inductive SpellParts : List Part → List Shape → Prop
  | nil : SpellParts [] []
  | cons {part : Part} {parts : List Part} {a b : List Shape} (ha : part.Spells a)
    (hb : SpellParts parts b) : SpellParts (part :: parts) (a ++ b)

/-- The shapes that an item spells. -/
inductive Item.Spells : Item → List Shape → Prop
  | part {p : Part} {a : List Shape} (h : p.Spells a) : Spells (.part p) a
  | skip (guard : Guard) (presence : Presence) (parts : List Part) :
    Spells (.group guard presence parts) []
  | take (guard : Guard) (presence : Presence) {parts : List Part} {a : List Shape}
    (h : SpellParts parts a) : Spells (.group guard presence parts) a

/-- The shapes that items spell one after the other. -/
inductive SpellItems : List Item → List Shape → Prop
  | nil : SpellItems [] []
  | cons {item : Item} {items : List Item} {a b : List Shape} (ha : item.Spells a)
    (hb : SpellItems items b) : SpellItems (item :: items) (a ++ b)

theorem SpellParts.eq_nil {shapes : List Shape} (h : SpellParts [] shapes) : shapes = [] := by
  cases h
  rfl

theorem SpellParts.exists_append {part : Part} {parts : List Part} {shapes : List Shape}
    (h : SpellParts (part :: parts) shapes) :
    ∃ a b, shapes = a ++ b ∧ part.Spells a ∧ SpellParts parts b := by
  cases h with
  | cons ha hb => exact ⟨_, _, rfl, ha, hb⟩

theorem SpellItems.eq_nil {shapes : List Shape} (h : SpellItems [] shapes) : shapes = [] := by
  cases h
  rfl

theorem SpellItems.exists_append {item : Item} {items : List Item} {shapes : List Shape}
    (h : SpellItems (item :: items) shapes) :
    ∃ a b, shapes = a ++ b ∧ item.Spells a ∧ SpellItems items b := by
  cases h with
  | cons ha hb => exact ⟨_, _, rfl, ha, hb⟩

theorem Item.Spells.of_part {p : Part} {shapes : List Shape} (h : (Item.part p).Spells shapes) :
    p.Spells shapes := by
  cases h with
  | part h => exact h

theorem Item.Spells.of_group {guard : Guard} {presence : Presence} {parts : List Part}
    {shapes : List Shape} (h : (Item.group guard presence parts).Spells shapes) :
    shapes = [] ∨ SpellParts parts shapes := by
  cases h with
  | skip => exact .inl rfl
  | take _ _ h => exact .inr h

/-- What a part that isn't in a group spells is among what all items spell. -/
theorem SpellItems.exists_of_mem {items : List Item} {shapes : List Shape}
    (h : SpellItems items shapes) {p : Part} (hp : .part p ∈ items) :
    ∃ a, p.Spells a ∧ a ⊆ shapes := by
  induction h with
  | nil => cases hp
  | cons ha hb ih =>
    rcases List.mem_cons.1 hp with rfl | hp
    · exact ⟨_, ha.of_part, List.subset_append_left _ _⟩
    · obtain ⟨a, hspells, hsub⟩ := ih hp
      exact ⟨a, hspells, List.subset_append_of_subset_right _ hsub⟩

/-! ### Spare tokens -/

namespace Shape

/-- The shapes that are written. -/
def written (shapes : List Shape) : List Shape :=
  shapes.filter isWritten

theorem written_append (a b : List Shape) : written (a ++ b) = written a ++ written b :=
  List.filter_append ..

theorem written_times {step : List Shape} (h : written step = step) (n : Nat) :
    written (times step n) = times step n := by
  induction n with
  | zero => rfl
  | succ n ih => rw [times, written_append, h, ih]

theorem written_cons (shape : Shape) (a : List Shape) :
    written (shape :: a) = written [shape] ++ written a :=
  written_append [shape] a

theorem written_listed (slot : Slot) (goal : Goal) (padded : Bool) (n : Nat) :
    written (listed slot goal padded n) = listed slot goal padded n := by
  cases n with
  | zero => rfl
  | succ n =>
    have hbody : written (child slot goal :: times [space .comma, child slot goal] n) =
        child slot goal :: times [space .comma, child slot goal] n := by
      rw [written_cons, written_times rfl]
      rfl
    simp only [listed, written_append, hbody]
    cases padded <;> rfl

theorem written_repeated (slot : Slot) (goal : Goal) (n : Nat) :
    written (repeated slot goal n) = repeated slot goal n :=
  written_times rfl n

theorem written_separated (slot : Slot) (goal : Goal) (delimiter : Punctuator) (n : Nat) :
    written (separated slot goal delimiter n) = separated slot goal delimiter n := by
  rw [separated, written_cons, written_times rfl]
  rfl

end Shape

/-- What is left when the spare tokens of a part go is spelled by it, too. -/
theorem Part.Spells.written {part : Part} {shapes : List Shape} (h : part.Spells shapes) :
    part.Spells (Shape.written shapes) := by
  cases h with
  | listed slot goal close allowEmpty n h =>
    rw [Shape.written_listed]
    exact .listed slot goal close allowEmpty n h
  | repeated slot goal start n =>
    rw [Shape.written_repeated]
    exact .repeated slot goal start n
  | separated slot goal delimiter n =>
    rw [Shape.written_separated]
    exact .separated slot goal delimiter n
  | spared slot goal delimiter n =>
    rw [Shape.written_cons, Shape.written_separated]
    exact .separated slot goal delimiter n
  | name slot rule text h => exact .name slot rule text h
  | literal l token atom h => exact .literal l token atom h
  | gap g => exact .gap g
  | punct p => exact .punct p
  | bracket p slot => exact .bracket p slot
  | keyword k => exact .keyword k
  | spacedName slot text => exact .spacedName slot text
  | child slot goal => exact .child slot goal
  | opened p slot goal => exact .opened p slot goal
  | demand p => exact .demand p

theorem SpellParts.written {parts : List Part} {shapes : List Shape} (h : SpellParts parts shapes) :
    SpellParts parts (Shape.written shapes) := by
  induction h with
  | nil => exact .nil
  | cons ha hb ih =>
    rw [Shape.written_append]
    exact .cons ha.written ih

theorem Item.Spells.written {item : Item} {shapes : List Shape} (h : item.Spells shapes) :
    item.Spells (Shape.written shapes) := by
  cases h with
  | part h => exact .part h.written
  | skip guard presence parts => exact .skip guard presence parts
  | take guard presence h => exact .take guard presence h.written

/-- What is left when the spare tokens of items go is spelled by them, too. -/
theorem SpellItems.written {items : List Item} {shapes : List Shape} (h : SpellItems items shapes) :
    SpellItems items (Shape.written shapes) := by
  induction h with
  | nil => exact .nil
  | cons ha hb ih =>
    rw [Shape.written_append]
    exact .cons ha.written ih

end GraphQLTree
