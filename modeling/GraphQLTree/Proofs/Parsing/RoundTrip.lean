import GraphQLTree.Proofs.Grammar.Bare
import GraphQLTree.Proofs.Language.Sound
import GraphQLTree.Proofs.Parsing.Documents

/-!
# Round trips of documents

Printing a parsed document and parsing the text gives the document again, but for comments, provided
that the printed definitions can stand next to each other. They can't where a definition that could have
a body but has none stands in front of a query that is written as its selection set alone: the braces
are read as the body then. There is no other obstacle (`parseDocument_print`).
-/

namespace GraphQLTree

/-- Whether a definition is a query that is written as its selection set alone. -/
def Node.isBareQuery (node : Node) : Bool :=
  node.kind = .operationDefinition && node.isShorthand

/-! ### Bare nodes -/

namespace Node

theorem inSlot_bare (node : Node) {slot : Slot} (hslot : slot.holdsComments = false) :
    node.bare.inSlot slot = (node.inSlot slot).map bare := by
  obtain ⟨kind, atom, children⟩ := node
  simp only [bare_mk, inSlot, Node.children, bareChildren_eq, List.filter_map, List.map_map,
    List.filter_filter]
  have hfilter : (children.filter fun entry => (((fun entry : Slot × Node =>
      decide (entry.1 = slot)) ∘ fun entry => (entry.1, entry.2.bare)) entry &&
        !entry.1.holdsComments)) = children.filter fun entry => entry.1 = slot := by
    refine List.filter_congr fun entry _ => ?_
    by_cases h : entry.1 = slot <;> simp [h, hslot]
  rw [hfilter]
  rfl

theorem isOpen_bare (node : Node) : node.bare.isOpen = node.isOpen := by
  have hbodies : ∀ kind ∈ Kind.all, ∀ slot ∈ kind.bodySlot?, slot.holdsComments = false := by decide
  unfold isOpen
  rw [kind_bare]
  cases h : node.kind.bodySlot? with
  | none => rfl
  | some slot =>
    rw [Option.any_some, Option.any_some, inSlot_bare node (hbodies _ node.kind.mem_all slot h)]
    simp

theorem contains_bareChildren (children : List (Slot × Node)) (slot : Slot)
    (hslot : slot.holdsComments = false) :
    ((bareChildren children).map fun entry => entry.1).contains slot =
      (children.map fun entry => entry.1).contains slot := by
  rw [bareChildren_eq, List.map_map, Bool.eq_iff_iff, List.contains_iff_mem, List.contains_iff_mem]
  simp only [List.mem_map, List.mem_filter, Function.comp_apply]
  constructor
  · rintro ⟨entry, ⟨hentry, -⟩, rfl⟩
    exact ⟨entry, hentry, rfl⟩
  · rintro ⟨entry, hentry, rfl⟩
    exact ⟨entry, ⟨hentry, by simp [hslot]⟩, rfl⟩

theorem isBareQuery_bare (node : Node) : node.bare.isBareQuery = node.isBareQuery := by
  obtain ⟨kind, atom, children⟩ := node
  have hatom : (atom.bare = .operation .query) ↔ atom = .operation .query := by
    cases atom <;> simp [Atom.bare]
  have hshorthand : GraphQLTree.isShorthand atom.bare ((bareChildren children).map fun entry => entry.1) =
      GraphQLTree.isShorthand atom (children.map fun entry => entry.1) := by
    rw [GraphQLTree.isShorthand, GraphQLTree.isShorthand, contains_bareChildren children .name rfl,
      contains_bareChildren children .variableDefinitions rfl,
      contains_bareChildren children .directives rfl, decide_eq_decide.2 hatom]
  rw [bare_mk]
  exact congrArg (decide (kind = .operationDefinition) && ·) hshorthand

end Node

/-! ### Definitions next to each other -/

/-- Whether a node is written as its selection set alone is told by its production. -/
theorem Production.isBareQuery_finish {p : Production} (hp : p.isReadable = true)
    {description : Option Child} {elements : List Element}
    (hdescribed : description.isSome = true → p.rule.described = true)
    (hspells : SpellItems p.rule.items (Elements.shapes elements))
    (hquery : p = .of .operationDefinition → Shape.isShorthand (Elements.shapes elements) = false) :
    (p.finish (descriptionElements description ++ elements)).isBareQuery = true ↔ p = .shorthand := by
  by_cases hkind : p.kind = .operationDefinition
  · have hforNode := @forNode_finish p hp none (.inl hkind) description elements hdescribed hspells
      hquery
    have hbare : (p.finish (descriptionElements description ++ elements)).isBareQuery =
        isShorthand ((Shape.atom? (Elements.shapes (descriptionElements description ++ elements))).getD
          p.rule.start) ((Node.arrange p.kind
            (Elements.entries (descriptionElements description ++ elements))).map Prod.fst) := by
      have hdecide : decide (p.kind = .operationDefinition) = true := decide_eq_true hkind
      exact (congrArg (· && _) hdecide).trans (Bool.true_and _)
    rw [hbare]
    rw [hkind] at hforNode ⊢
    rw [forNode] at hforNode
    split at hforNode
    · next hshorthand => exact iff_of_true hshorthand hforNode.symm
    · next hlong =>
      refine iff_of_false hlong ?_
      rw [← hforNode]
      exact fun h => by cases h
  · refine iff_of_false (fun hbare => hkind ?_) fun hp => hkind (hp ▸ rfl)
    exact of_decide_eq_true (Bool.and_eq_true_iff.1 hbare).1

/-- A definition without spare words starts with a brace if and only if it is a query that is written
as its selection set alone. -/
theorem Derives.isBareQuery_iff {marks : List Mark} {pieces : List Piece} {node : Node}
    (h : Derives .definition marks pieces node) (hkept : ∀ mark ∈ marks, mark.spare = false) :
    node.isBareQuery = true ↔
      (marks.head?.map fun mark => mark.word.token) = some (.punct .braceOpen) := by
  have hstarts : ∀ p ∈ Goal.definition.productions, .punct .braceOpen ∈ (Goal.production p).starts →
      p = .shorthand := by decide
  have hbrace : (Goal.production .shorthand).starts = [.punct .braceOpen] := by decide
  cases h with
  | @production _ p description elements hgoal hreadable hdescribed hspells hdemand hquery
      hdescription hchildren =>
    have hderives : Derives (.production p) _ _ _ := .production (List.mem_singleton_self p) hreadable
      hdescribed hspells hdemand hquery hdescription hchildren
    obtain ⟨mark, rest, hmarks, hclass⟩ := hderives.startIn
    rw [Production.isBareQuery_finish hreadable hdescribed hspells hquery, hmarks, List.head?_cons,
      Option.map_some, Option.some.injEq]
    refine ⟨?_, fun htoken => hstarts p hgoal (by rwa [htoken] at hclass)⟩
    rintro rfl
    rw [hbrace] at hclass
    exact Token.eq_punct_of_class (List.mem_singleton.1 hclass)
  | query comments hgoal hshorthand hchild =>
    cases hkept _ List.mem_cons_self

/-! ### Documents -/

/-- Whether a definition can be printed in front of another one: a query that is its selection set alone
would be the body of an open definition. -/
def Node.Precedes (a b : Node) : Prop :=
  a.isOpen = true → b.isBareQuery = false

theorem Node.bare_ofDefinitions (size : Nat) (definitions : List Node) (comments : List Comment) :
    (ofDefinitions size definitions comments).bare = ofDefinitions 0 (definitions.map bare) [] := by
  rw [ofDefinitions, bare_mk, bareChildren_append, bareChildren_map rfl, bareChildren_ofComments rfl]
  rfl

/-- Whether definitions can be printed one after the other doesn't depend on their comments. -/
theorem Node.isChain_precedes_bare (definitions : List Node) :
    (definitions.map bare).IsChain Precedes ↔ definitions.IsChain Precedes := by
  rw [List.isChain_map]
  have hiff (a b : Node) : Precedes a.bare b.bare ↔ Precedes a b := by
    rw [Precedes, Precedes, isOpen_bare, isBareQuery_bare]
  simp only [hiff]

/-- Definitions without spare words stand apart if and only if they can be printed one after the
other. -/
theorem Child.isChain_apart_iff {children : List Child}
    (hderives : ∀ c ∈ children, Derives .definition c.marks c.pieces c.node)
    (hkept : ∀ c ∈ children, ∀ mark ∈ c.marks, mark.spare = false) :
    children.IsChain Child.Apart ↔ (children.map Child.node).IsChain Node.Precedes := by
  rw [List.isChain_map]
  have hiff (a b : Child) (hb : b ∈ children) :
      Child.Apart a b ↔ Node.Precedes a.node b.node := by
    rw [Child.Apart, Node.Precedes, Ne, ← (hderives b hb).isBareQuery_iff (hkept b hb),
      Bool.not_eq_true]
  constructor <;> intro h
  · exact h.imp_of_mem_imp fun a b _ hb hapart => (hiff a b hb).1 hapart
  · exact h.imp_of_mem_imp fun a b _ hb hprecedes => (hiff a b hb).2 hprecedes

/-- What is printed of a parsed document is parsed again as a document like it but for comments, which
is printed as the same text, if and only if its definitions can be printed one after the other. -/
theorem parseDocument_print (text : String) {document : Node}
    (h : parseDocument text = .ok document) (style : Style) :
    (∃ document', parseDocument (document.print style) = .ok document' ∧
      document'.bare = document.bare ∧ document'.print style = document.print style) ↔
    (document.inSlot .definitions).IsChain Node.Precedes := by
  obtain ⟨children, comments, hread, rfl⟩ := exists_definitions h
  rw [Node.inSlot_ofDefinitions]
  constructor
  · rintro ⟨document', hparse, hbare, hprint⟩
    obtain ⟨children', comments', hread', rfl⟩ := exists_definitions hparse
    -- All tokens of the printed text are written again, so none of them is spare.
    have hwritten : Mark.writtenTokens (children'.flatMap Child.marks) =
        (children'.flatMap Child.marks).map fun mark => mark.word.token := by
      rw [← hread'.tokenize_text.2, ← hprint]
      exact (hread'.tokenize_print style _).2.symm
    have hkept := Mark.kept_of_writtenTokens_eq hwritten
    have hnodes : (children'.map Child.node).map Node.bare = (children.map Child.node).map Node.bare := by
      have hslot := congrArg (Node.inSlot · .definitions) hbare
      have hdefinitions : Slot.definitions.holdsComments = false := rfl
      simpa only [Node.inSlot_bare _ hdefinitions, Node.inSlot_ofDefinitions] using hslot
    rw [← Node.isChain_precedes_bare, ← hnodes, Node.isChain_precedes_bare,
      ← Child.isChain_apart_iff hread'.derives fun c hc mark hmark =>
        hkept mark (List.mem_flatMap.2 ⟨c, hc, hmark⟩)]
    exact hread'.apart
  · intro hchain
    obtain ⟨children', hrereads⟩ := exists_rereads_definitions hread.derives style
    have hnodes : (children'.map Child.node).map Node.bare = (children.map Child.node).map Node.bare := by
      rw [List.map_map, List.map_map]
      exact Child.Rereads.map_bare hrereads
    have hderives : ∀ c ∈ children', Derives .definition c.marks c.pieces c.node :=
      Child.Rereads.forall_mem hrereads fun _ _ hc => hc.derives
    have hkept : ∀ c ∈ children', ∀ mark ∈ c.marks, mark.spare = false :=
      Child.Rereads.forall_mem hrereads fun _ _ hc => hc.kept
    have happart : children'.IsChain Child.Apart := by
      rwa [Child.isChain_apart_iff hderives hkept, ← Node.isChain_precedes_bare, hnodes,
        Node.isChain_precedes_bare]
    have hwords := hread.ofText_print style (TokenStream.ofText text).size
    rw [Child.Rereads.words_document hrereads] at hwords
    have hne : children' ≠ [] := by
      rintro rfl
      exact hread.ne_nil (List.map_eq_nil_iff.1 (List.map_eq_nil_iff.1 hnodes.symm))
    have hread' := ReadFrom.of_words hne hderives happart hwords
    refine ⟨_, hread'.parse, ?_, ?_⟩
    · rw [Node.bare_ofDefinitions, Node.bare_ofDefinitions, hnodes]
    · rw [hread'.print_eq, hread.print_eq, Child.Rereads.documentPieces_eq hrereads,
        Piece.styled_styled ⟨id, .inl rfl⟩]

/-- A type with a body in front of a query, as they are parsed from twenty bytes. -/
def typeAndQuery : Node :=
  Node.ofDefinitions 20
    [.mk (.objectType .definition) .none [(.name, .ofName "A"), (.fields,
      .mk .fieldDefinitionSet .none [(.definitions, .mk .fieldDefinition .none
        [(.name, .ofName "b"), (.type, .mk .namedType .none [(.name, .ofName "C")])])])],
    .mk .operationDefinition (.operation .query) [(.selectionSet,
      .mk .selectionSet .none [(.selections, .mk .field .none [(.name, .ofName "a")])])]] []

/-- A query behind the body of a type. -/
theorem parseDocument_print_body :
    parseDocument "type A{b:C} query{a}" = .ok typeAndQuery ∧
      ((∃ document', parseDocument (typeAndQuery.print .compact) = .ok document' ∧
        document'.bare = typeAndQuery.bare ∧
        document'.print .compact = typeAndQuery.print .compact) ↔
      (typeAndQuery.inSlot .definitions).IsChain Node.Precedes) :=
  ⟨by decide +kernel, parseDocument_print "type A{b:C} query{a}" (by decide +kernel) .compact⟩

/-- The selection set of a query is taken for the body of the type in front of it. -/
theorem parseDocument_print_open :
    (parseDocument "type A query {a}").toOption.isSome = true ∧
      ((parseDocument "type A query {a}").toOption.bind fun document =>
        (parseDocument (document.print .compact)).toOption) = none := by
  decide +kernel

end GraphQLTree
