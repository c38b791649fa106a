import GraphQLTree.Proofs.Grammar.Regular
import GraphQLTree.Proofs.Grammar.Soundness
import GraphQLTree.Proofs.Parsing.Documents

/-!
# Parsed nodes are regular

Every node of what is parsed of a text is regular, whatever it is parsed as (`Target.parse_regular`): its
words are words of the text, and the nodes of a derivation from regular words are regular. Only a number
may be other than it should be. The scanner takes an exponent mark along when a sign without digits
follows, so that the number ends bare (`Target.parse_exponentMark`). The sign forms no token then, so no
document has such a number, and nothing else if it is parsed from a text without lexical error.
-/

namespace GraphQLTree

variable {bare : Prop}

/-- The words of a text are regular wherever they are taken from it. -/
theorem Mark.regular_of_subset {marks : List Mark} {text : String}
    (h : marks.map Mark.word ⊆ (Word.ofText text.toList).1) :
    Mark.Regular ((tokenize text).2 ≠ none) marks :=
  fun _ hmark => Word.regular_ofText text _ (h (List.mem_map_of_mem hmark))

/-- A document with definitions is regular. -/
theorem Node.regular_document {definitions : List Node} (hne : definitions ≠ []) (size : Nat)
    (comments : List Comment) : (ofDefinitions size definitions comments).Regular bare where
  admits := trivial
  filled := by
    rintro slot ⟨⟩
    rwa [inSlot_ofDefinitions]
  named := by simp [ofDefinitions, kind, Kind.reserved]
  adds := by simp [ofDefinitions, kind, Language.isExtension]
  inline := by
    have hslots : ∀ slot ∈ Kind.document.soleSlots, slot ≠ .definitions ∧ slot ≠ .comments := by
      decide
    intro slot hslot
    have hnil : (ofDefinitions size definitions comments).inSlot slot = [] := by
      refine List.map_eq_nil_iff.2 (List.filter_eq_nil_iff.2 fun entry hentry heq => ?_)
      obtain rfl := of_decide_eq_true heq
      rcases List.mem_append.1 hentry with hentry | hentry
      · obtain ⟨definition, -, rfl⟩ := List.mem_map.1 hentry
        exact (hslots _ hslot).1 rfl
      · obtain ⟨comment, -, rfl⟩ := List.mem_map.1 hentry
        exact (hslots _ hslot).2 rfl
    simp [hnil]

/-- A document is regular with all nodes below it if its definitions are. -/
theorem Node.regular_ofDefinitions {definitions : List Node} (hne : definitions ≠ [])
    (h : ∀ definition ∈ definitions, ∀ n ∈ definition.nodes, n.Regular bare) (size : Nat)
    (comments : List Comment) :
    ∀ n ∈ (ofDefinitions size definitions comments).nodes, n.Regular bare := by
  intro n hn
  rcases mem_nodes_mk.1 hn with rfl | ⟨entry, hentry, hn⟩
  · exact regular_document hne size comments
  rcases List.mem_append.1 hentry with hentry | hentry
  · obtain ⟨definition, hdefinition, rfl⟩ := List.mem_map.1 hentry
    exact h definition hdefinition n hn
  · exact regular_ofComments .comments comments entry hentry n hn

namespace Target

/-- Every node of what is parsed of a text, as anything that a text can be parsed as, is regular: names
are names, numbers are literals, no set is empty that the language wants something in, reserved words
aren't used as names, extensions add something, block strings are dedented, and only the last comment of a
token is inline. Numbers may end bare, but not in documents or in texts without lexical error. -/
theorem parse_regular {target : Target} (htarget : target ∈ parsable) {text : String} {node : Node}
    (h : target.parse text = .ok node) :
    ∀ n ∈ node.nodes, n.Regular (target ≠ .document ∧ (tokenize text).2 ≠ none) := by
  cases target with
  | document =>
    obtain ⟨children, comments, hread, rfl⟩ := exists_definitions h
    have hmarks : Mark.Regular ((tokenize text).2 ≠ none) (children.flatMap Child.marks) :=
      Mark.regular_of_subset (by rw [hread.words_eq]; exact List.Subset.refl _)
    refine Node.regular_ofDefinitions (by simpa using hread.ne_nil) ?_ _ comments
    intro definition hdefinition
    obtain ⟨c, hc, rfl⟩ := List.mem_map.1 hdefinition
    refine (hread.derives c hc).regular fun mark hmark => ?_
    have hword := hmarks mark (List.mem_flatMap.2 ⟨c, hc, hmark⟩)
    exact hword.mono fun hinvalid => absurd hread.tokenize_text.1 hinvalid
  | goal g =>
    unfold parse at h
    split at h
    · next node' rest hread =>
      obtain rfl := Except.ok.inj h
      obtain ⟨c, rfl, ⟨taken, hlexemes, hwords⟩, hderives⟩ :=
        Goal.read_sound _ g _ _ _ (isReadable_of_parsable htarget) hread
      have hsubset : c.marks.map Mark.word ⊆ (Word.ofText text.toList).1 := by
        rw [← TokenStream.map_word_lexemes, ← hwords]
        refine List.map_subset _ ?_
        change taken ⊆ (TokenStream.ofText text).lexemes
        rw [hlexemes]
        exact List.subset_append_left _ _
      refine hderives.regular fun mark hmark => ?_
      exact (Mark.regular_of_subset hsubset mark hmark).mono fun hinvalid => ⟨by simp, hinvalid⟩
    · cases h
    · cases h

/-- A type extension with one directive, as it is parsed from seventeen bytes. -/
def directed : Node :=
  Node.ofDefinitions 17 [.mk (.objectType .extension) .none [(.name, .ofName "A"),
    (.directives, .mk (.directive .constant) .none [(.name, .ofName "b")])]] []

/-- The extension adds something. -/
theorem parse_regular_directed : document ∈ parsable ∧
    document.parse "extend type A @b " = .ok directed ∧
    ∀ n ∈ directed.nodes,
      n.Regular (document ≠ .document ∧ (tokenize "extend type A @b ").2 ≠ none) := by
  have hdirected : document.parse "extend type A @b " = .ok directed := by decide +kernel
  exact ⟨document_mem_parsable, hdirected, parse_regular document_mem_parsable hdirected⟩

/-- The integer that is parsed in front of a sign isn't the text of an integer. -/
theorem parse_exponentMark :
    ∃ node, (goal (.kind .intValue)).parse "1e+" = .ok node ∧ node ∈ node.nodes ∧
      node.kind = .intValue ∧ ¬Token.IsInteger node.text.toList ∧ ¬node.Regular False := by
  have hinteger : ¬Token.IsInteger "1e".toList := fun hinteger => by
    have hdigit := hinteger.getLast? 'e' (by decide)
    cases hdigit
  refine ⟨.mk .intValue (.text "1e") [], by decide, Node.mem_nodes_mk.2 (.inl rfl), rfl,
    hinteger, fun hregular => ?_⟩
  obtain ⟨text, htext, hliteral⟩ := hregular.admits
  obtain rfl : "1e" = text := Atom.text.inj htext
  exact hinteger (hliteral.resolve_right And.left)

end Target

end GraphQLTree
