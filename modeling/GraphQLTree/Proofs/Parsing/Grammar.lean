import GraphQLTree.Proofs.Language.Complete
import GraphQLTree.Proofs.Parsing.Target

/-!
# Documents are parsed by the grammar

A text is parsed as a document if and only if it has no lexical error and the grammar derives a node from
its tokens other than comments. There is only one such node then, and it is the document that is
parsed, without its comments (`parseDocument_grammar`).
-/

namespace GraphQLTree

open Language

namespace Language

/-- Lookahead in front of a definition is about definitions that are open. -/
theorem lacksBody_iff (node : Node) : LacksBody node ↔ node.isOpen = true := by
  rw [LacksBody, Node.isOpen]
  cases node.kind with
  | schema role => cases role <;> simp [Kind.bodySlot?]
  | _ => simp [Kind.bodySlot?]

/-- Definitions that follow the grammar are children. -/
theorem exists_children {definitions : List (List Token × Node)}
    (h : ∀ d ∈ definitions, YieldsNode .definition d.1 d.2) :
    ∃ children : List Child,
      definitions = (children.map fun c => (Mark.tokens c.marks, c.node)) ∧
      Mark.Bare (children.flatMap Child.marks) ∧
      ∀ c ∈ children, Derives .definition c.marks c.pieces c.node := by
  induction definitions with
  | nil => exact ⟨[], rfl, by simp [Mark.Bare], by simp⟩
  | cons d definitions ih =>
    obtain ⟨children, rfl, hbare, hd⟩ := ih fun e he => h e (List.mem_cons_of_mem _ he)
    obtain ⟨c, hnode, htokens, hbarec, hc⟩ :=
      (h d List.mem_cons_self).found.1 .definition rfl (by decide)
    exact ⟨c :: children, by simp [hnode, htokens], Mark.bare_append.2 ⟨hbarec, hbare⟩,
      by simpa [hc] using hd⟩

/-- Standing apart is a matter of tokens. -/
theorem isChain_separate {children : List Child} :
    (children.map fun c => (Mark.tokens c.marks, c.node)).IsChain Separate ↔
      children.IsChain Child.Apart := by
  have hseparate (a b : Child) : Separate (Mark.tokens a.marks, a.node) (Mark.tokens b.marks, b.node) ↔
      a.Apart b := by
    simp only [Separate, Child.Apart, lacksBody_iff, Mark.tokens, List.head?_map]
  rw [List.isChain_map]
  exact List.IsChain.iff hseparate

/-- The tokens of a document are valid. -/
theorem YieldsDocument.valid {tokens : List Token} {node : Node} (h : YieldsDocument tokens node) :
    ∀ token ∈ tokens, token ≠ .invalid := by
  obtain ⟨definitions, -, hyields, -, rfl, -⟩ := h
  intro token htoken
  obtain ⟨d, hd, htoken⟩ := List.mem_flatMap.1 htoken
  exact (hyields d hd).valid token htoken

end Language

theorem Mark.tokens_flatMap (children : List Child) :
    Mark.tokens (children.flatMap Child.marks) =
      (children.map fun c => (Mark.tokens c.marks, c.node)).flatMap Prod.fst := by
  rw [Mark.tokens, List.map_flatMap, List.flatMap_map]
  rfl

/-- Words without comments are those of their tokens. -/
theorem Lexeme.map_word_ofTokens {marks : List Mark} (h : Mark.Bare marks) :
    (Lexeme.ofTokens (Mark.tokens marks)).map Lexeme.word = marks.map Mark.word := by
  rw [ofTokens, Mark.tokens, List.map_map, List.map_map]
  refine List.map_congr_left fun mark hmark => ?_
  have hcomments : mark.word.comments = [] := h mark hmark
  obtain ⟨⟨token, comments⟩, spare⟩ := mark
  obtain rfl := hcomments
  rfl

/-- Words that are those of some tokens have no comments. -/
theorem Mark.bare_of_ofTokens {marks : List Mark} {tokens : List Token}
    (h : (Lexeme.ofTokens tokens).map Lexeme.word = marks.map Mark.word) :
    Bare marks ∧ Mark.tokens marks = tokens := by
  rw [Lexeme.ofTokens, List.map_map] at h
  constructor
  · intro mark hmark
    have hmem := h ▸ List.mem_map_of_mem (f := Mark.word) hmark
    obtain ⟨token, -, hword⟩ := List.mem_map.1 hmem
    rw [← hword]
    rfl
  · have htokens := congrArg (List.map Word.token) h
    simpa [Mark.tokens, Function.comp_def, Lexeme.word] using htokens.symm

/-- Reading tokens as a document gives the node that the grammar derives from them, if there is one. -/
theorem TokenStream.read_document_iff (tokens : List Token) (node : Node) :
    (∃ rest, (ofTokens tokens).read .document = .done node rest) ↔ YieldsDocument tokens node := by
  constructor
  · rintro ⟨rest, h⟩
    obtain ⟨nodes, lexemes, hnodes, hdone⟩ := Outcome.andThen_eq_done h
    obtain ⟨rfl, children, rfl, hwords, hd, hchain⟩ := readDefinitions_sound hnodes
    split at hdone
    · cases hdone
    · next hempty =>
      injection hdone with hnode hrest
      obtain ⟨hbare, rfl⟩ := Mark.bare_of_ofTokens hwords
      refine ⟨children.map fun c => (Mark.tokens c.marks, c.node), ?_, ?_, ?_,
        Mark.tokens_flatMap children, ?_⟩
      · simpa using hempty
      · intro d hd'
        obtain ⟨c, hc, rfl⟩ := List.mem_map.1 hd'
        exact (hd c hc).yields (fun mark hmark => hbare mark (List.mem_flatMap.2 ⟨c, hc, hmark⟩)) rfl
      · exact isChain_separate.2 hchain
      · rw [← hnode]
        simp [ofTokens, Node.ofComments]
  · rintro ⟨definitions, hne, hyields, hchain, rfl, rfl⟩
    obtain ⟨children, rfl, hbare, hd⟩ := exists_children hyields
    rw [← Mark.tokens_flatMap]
    have hlength : (Lexeme.ofTokens (Mark.tokens (children.flatMap Child.marks))).length =
        (children.flatMap Child.marks).length := by
      simp [Lexeme.ofTokens, Mark.tokens]
    have hdepth : Goal.depthFor (Lexeme.ofTokens (Mark.tokens (children.flatMap Child.marks))) =
        4 * ((children.flatMap Child.marks).length + 1) := by
      rw [Goal.depthFor, hlength]
    have hread := readDefinitions_complete hd (isChain_separate.1 hchain) hdepth.ge
      (show _ ≤ Goal.depthFor (Lexeme.ofTokens (Mark.tokens (children.flatMap Child.marks))) by omega)
      (Lexeme.map_word_ofTokens hbare)
    have hempty : (children.map Child.node).isEmpty = false := by simpa using hne
    refine ⟨[], ?_⟩
    simp only [read, readDocument, ofTokens, hread, Outcome.andThen, hempty, Bool.false_eq_true,
      if_false]
    simp [Node.ofComments]

/-- A text that is parsed as a document has no lexical error, and the document, without its comments, is
the only node that is derived from its tokens other than comments. -/
theorem yieldsDocument_of_parse {text : String} {document : Node}
    (h : parseDocument text = .ok document) : (tokenize text).2 = none ∧
      ∀ node, YieldsDocument (Token.significant (tokenize text).1) node ↔ node = document.bare := by
  have hread := TokenStream.read_document_iff ((TokenStream.ofText text).lexemes.map Lexeme.token)
  rcases Target.parse_of_read (show Target.document ∈ Target.parsable by decide) text with
    ⟨tree, tree', rest, hdone, hparse, rfl⟩ | ⟨failure, rest, -, -, hparse⟩
  · obtain rfl : tree = document := Except.ok.inj (hparse.symm.trans h)
    have hyields := (hread tree.bare).1 ⟨rest, hdone⟩
    have hvalid : (tokenize text).2 = none := by
      refine (tokenize_eq_none_iff text).2 fun word hword => ?_
      rw [← TokenStream.map_word_lexemes] at hword
      obtain ⟨lexeme, hlexeme, rfl⟩ := List.mem_map.1 hword
      exact hyields.valid lexeme.token (List.mem_map_of_mem hlexeme)
    refine ⟨hvalid, fun node => ?_⟩
    rw [← map_token_lexemes hvalid]
    refine ⟨fun h => ?_, fun h => h ▸ hyields⟩
    obtain ⟨rest', hdone'⟩ := (hread node).2 h
    rw [hdone] at hdone'
    injection hdone' with hnode
    exact hnode.symm
  · cases hparse.symm.trans h

/-- A text is parsed as a document if and only if it has no lexical error and its tokens other than
comments follow the grammar, and the document, without its comments, is the only node that is derived
from them. -/
theorem parseDocument_grammar (text : String) :
    ((∃ document, parseDocument text = .ok document) ↔ (tokenize text).2 = none ∧
      ∃ node, YieldsDocument (Token.significant (tokenize text).1) node) ∧
    ∀ document, parseDocument text = .ok document → ∀ node,
      YieldsDocument (Token.significant (tokenize text).1) node ↔ node = document.bare := by
  refine ⟨⟨?_, ?_⟩, fun document h => (yieldsDocument_of_parse h).2⟩
  · rintro ⟨document, h⟩
    obtain ⟨hvalid, hyields⟩ := yieldsDocument_of_parse h
    exact ⟨hvalid, _, (hyields _).2 rfl⟩
  · rintro ⟨hvalid, node, hyields⟩
    rw [← map_token_lexemes hvalid] at hyields
    obtain ⟨rest, hdone⟩ := (TokenStream.read_document_iff _ node).2 hyields
    rcases Target.parse_of_read (show Target.document ∈ Target.parsable by decide) text with
      ⟨document, tree, rest', -, hparse, -⟩ | ⟨failure, rest', hfailed, -, -⟩
    · exact ⟨document, hparse⟩
    · cases hfailed.symm.trans hdone

end GraphQLTree
