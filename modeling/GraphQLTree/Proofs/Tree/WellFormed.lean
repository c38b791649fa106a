import GraphQLTree.Proofs.Language.Grammar
import GraphQLTree.Proofs.Token.Legible
import GraphQLTree.Proofs.Tree.Typed
import GraphQLTree.Grammar.Parser

/-!
# Well-formed nodes

A node that is made by hand may hold anything. It is **well-formed** if it and all nodes below it
conform to the schema and can be written at all: names are names, numbers are number tokens, lists that
the language wants items in have some, extensions add something, and what is written as a block string
is what a block string can stand for. Whether a node is well-formed can be decided.
-/

namespace GraphQLTree

/-- A block string stands for a text if and only if the text is read from what it is written as. -/
theorem Text.exists_dedent_iff (value : String) :
    (∃ raw, value = String.ofList (dedent raw)) ↔
      Text.dedent (Text.writtenRaw value.toList) = value.toList := by
  constructor
  · rintro ⟨raw, rfl⟩
    rw [String.toList_ofList, Text.dedent_writtenRaw]
  · exact fun h => ⟨_, by rw [h, String.ofList_toList]⟩

namespace Kind

/-- Whether nodes of a kind hold nothing besides their children. -/
def isPlain : Kind → Bool
  | name => false
  | blockComment => false
  | inlineComment => false
  | document => false
  | operationDefinition => false
  | intValue => false
  | floatValue => false
  | stringValue => false
  | booleanValue => false
  | enumValue => false
  | operationTypeDefinition => false
  | directiveDefinition => false
  | executableLocation => false
  | typeSystemLocation => false
  | _ => true

/-- Whether nodes of a kind may hold a text: a name is a name, and a number is the token that is read from
its text. -/
def suitsText : Kind → String → Bool
  | name, text => Token.IsName text.toList
  | intValue, text => (tokenize text).1 = [.int text] && (tokenize text).2.isNone
  | floatValue, text => (tokenize text).1 = [.float text] && (tokenize text).2.isNone
  | enumValue, text =>
    Token.IsName text.toList && [Keyword.trueValue, .falseValue, .nullValue].all (text ≠ ·.text)
  | blockComment, _ => true
  | inlineComment, _ => true
  | _, _ => false

/-- What nodes of a kind may hold besides their children. -/
def Holds (kind : Kind) : Atom → Prop
  | .none => kind.isPlain = true
  | .text text => kind.suitsText text = true
  | .string value block =>
    kind = stringValue ∧ (block = true → ∃ raw, value = String.ofList (Text.dedent raw))
  | .boolean _ => kind = booleanValue
  | .operation _ => kind = operationDefinition ∨ kind = operationTypeDefinition
  | .repeatable _ => kind = directiveDefinition
  | .size _ => kind = document
  | .executable _ => kind = executableLocation
  | .typeSystem _ => kind = typeSystemLocation

instance (kind : Kind) : DecidablePred kind.Holds
  | .none => inferInstanceAs (Decidable (kind.isPlain = true))
  | .text text => inferInstanceAs (Decidable (kind.suitsText text = true))
  | .string value block =>
    have := decidable_of_iff _ (Text.exists_dedent_iff value).symm
    inferInstanceAs (Decidable (kind = stringValue ∧
      (block = true → ∃ raw, value = String.ofList (Text.dedent raw))))
  | .boolean _ => inferInstanceAs (Decidable (kind = booleanValue))
  | .operation _ =>
    inferInstanceAs (Decidable (kind = operationDefinition ∨ kind = operationTypeDefinition))
  | .repeatable _ => inferInstanceAs (Decidable (kind = directiveDefinition))
  | .size _ => inferInstanceAs (Decidable (kind = document))
  | .executable _ => inferInstanceAs (Decidable (kind = executableLocation))
  | .typeSystem _ => inferInstanceAs (Decidable (kind = typeSystemLocation))

/-- The words that the name of a node of a kind can't be. -/
def reserved : Kind → List Keyword
  | fragmentDefinition => [.onType]
  | fragmentSpread => [.onType]
  | enumValueDefinition => [.trueValue, .falseValue, .nullValue]
  | _ => []

/-- The slot that nodes of a kind have at least one child in. -/
def filledSlot? : Kind → Option Slot
  | document => some .definitions
  | variableDefinitionSet => some .definitions
  | selectionSet => some .selections
  | argumentSet _ => some .arguments
  | namedTypeSet => some .types
  | operationTypeDefinitionSet => some .definitions
  | fieldDefinitionSet => some .definitions
  | inputValueDefinitionSet => some .definitions
  | enumValueDefinitionSet => some .definitions
  | directiveLocationSet => some .locations
  | _ => none

end Kind

namespace Node

/-- Whether a node, but for the nodes below it, can be written. -/
structure Conforms (node : Node) : Prop extends node.Fits where
  holds : node.kind.Holds node.atom
  filled : ∀ slot ∈ node.kind.filledSlot?, node.inSlot slot ≠ []
  named : ∀ child ∈ node.inSlot .name, ∀ k ∈ node.kind.reserved, child.text ≠ k.text
  /-- An extension has something besides its name and its comments. -/
  adds : Language.isExtension node.kind = true →
    ∃ entry ∈ node.children, entry.1 ≠ .name ∧ entry.1.holdsComments = false

/-- Whether a node and all nodes below it can be written. -/
inductive WellFormed : Node → Prop
  | intro {node : Node} (conforms : node.Conforms)
    (children : ∀ entry ∈ node.children, WellFormed entry.2) : WellFormed node

instance (node : Node) : Decidable node.Conforms :=
  decidable_of_iff
    (node.Fits ∧ node.kind.Holds node.atom ∧
      (∀ slot ∈ node.kind.filledSlot?, node.inSlot slot ≠ []) ∧
      (∀ child ∈ node.inSlot .name, ∀ k ∈ node.kind.reserved, child.text ≠ k.text) ∧
      (Language.isExtension node.kind = true →
        ∃ entry ∈ node.children, entry.1 ≠ .name ∧ entry.1.holdsComments = false))
    ⟨fun ⟨fits, holds, filled, named, adds⟩ => ⟨fits, holds, filled, named, adds⟩,
      fun h => ⟨h.toFits, h.holds, h.filled, h.named, h.adds⟩⟩

theorem WellFormed.conforms {node : Node} : node.WellFormed → node.Conforms
  | intro conforms _ => conforms

theorem WellFormed.children {node : Node} :
    node.WellFormed → ∀ entry ∈ node.children, entry.2.WellFormed
  | intro _ children => children

mutual

/-- Decides whether a node is well formed. -/
def decWellFormed : (node : Node) → Decidable node.WellFormed
  | mk kind atom children =>
    if conforms : (mk kind atom children).Conforms then
      match decWellFormedChildren children with
      | isTrue h => isTrue (.intro conforms h)
      | isFalse h => isFalse fun wellFormed => h wellFormed.children
    else isFalse fun wellFormed => conforms wellFormed.conforms

/-- Decides whether all children in a list are well formed. -/
def decWellFormedChildren :
    (children : List (Slot × Node)) → Decidable (∀ entry ∈ children, entry.2.WellFormed)
  | [] => isTrue (by simp)
  | (slot, child) :: rest =>
    match decWellFormed child, decWellFormedChildren rest with
    | isTrue h, isTrue h' => isTrue (List.forall_mem_cons.2 ⟨h, h'⟩)
    | isFalse h, _ => isFalse fun wellFormed => h (wellFormed (slot, child) List.mem_cons_self)
    | _, isFalse h => isFalse fun wellFormed => h fun entry hentry =>
        wellFormed entry (List.mem_cons_of_mem _ hentry)

end

instance : DecidablePred WellFormed := decWellFormed

end Node

end GraphQLTree
