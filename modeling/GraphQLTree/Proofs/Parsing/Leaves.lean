import GraphQLTree.Proofs.Grammar.Leaves
import GraphQLTree.Proofs.Language.Leaves
import GraphQLTree.Proofs.Parsing.Documents
import GraphQLTree.Proofs.Parsing.Grammar
import GraphQLTree.Proofs.Traversal.Entered

/-!
# Leaves are entered in the order of the text

A walk over a document that was parsed enters its leaves in the order of the text: they are written as
the tokens of the text other than comments, of which those are left out that belong to no leaf, and these
are punctuators and keywords (`parseDocument_leaves`). A name that is spelled like a keyword belongs to a
leaf and isn't left out.
-/

namespace GraphQLTree

open Language

/-- A document has the same leaves without comments if its definitions do. -/
theorem Node.leaves_bare_ofDefinitions {definitions : List Node}
    (h : ∀ definition ∈ definitions, definition.bare.leaves = definition.leaves) (size : Nat)
    (comments : List Comment) :
    (ofDefinitions size definitions comments).bare.leaves =
      (ofDefinitions size definitions comments).leaves := by
  refine leaves_bare_mk (fun entry hentry hholds => ?_) (fun entry hentry _ => ?_)
  · rcases List.mem_append.1 hentry with hentry | hentry
    · obtain ⟨definition, -, rfl⟩ := List.mem_map.1 hentry
      cases hholds
    · exact (leaves_ofComments hentry).1
  · rcases List.mem_append.1 hentry with hentry | hentry
    · obtain ⟨definition, hdefinition, rfl⟩ := List.mem_map.1 hentry
      exact h definition hdefinition
    · exact (leaves_ofComments hentry).2

/-- A document that was parsed has the same leaves without its comments. -/
theorem leaves_bare_of_parse {text : String} {document : Node}
    (h : parseDocument text = .ok document) : document.bare.leaves = document.leaves := by
  obtain ⟨children, comments, hread, rfl⟩ := exists_definitions h
  refine Node.leaves_bare_ofDefinitions ?_ _ comments
  rw [List.forall_mem_map]
  exact fun c hc => (hread.derives c hc).leaves_bare

/-- The tokens of a document's text other than comments belong to nodes of the document. A walk over the
document enters its leaves in the order of the text: whomever the grammar says that the tokens belong to,
the tokens that the leaves are written as are those that belong to leaves, and the tokens left out are
punctuators and keywords that aren't values. -/
theorem parseDocument_leaves {text : String} {document : Node}
    (h : parseDocument text = .ok document) :
    (∃ owned, AssignsDocument owned document.bare ∧
      owned.map Owned.token = Token.significant (tokenize text).1) ∧
    ∀ owned node, AssignsDocument owned node →
      owned.map Owned.token = Token.significant (tokenize text).1 →
      (document.entered.filter (·.kind.isLeaf)).map Node.owned =
        owned.filter (·.owner.isLeaf) ∧
      ∀ o ∈ owned, o.owner.isLeaf = false → o.token.IsStructural := by
  obtain ⟨-, hyields⟩ := yieldsDocument_of_parse h
  refine ⟨yieldsDocument_iff.1 ((hyields _).2 rfl), fun owned node hassigns htokens => ?_⟩
  obtain rfl : node = document.bare := (hyields node).1 (yieldsDocument_iff.2 ⟨owned, hassigns, htokens⟩)
  refine ⟨?_, hassigns.isStructural⟩
  rw [Node.entered_eq_nodes]
  exact (leaves_bare_of_parse h).symm.trans hassigns.leaves

/-- A query with names that are spelled like keywords, and a comment. -/
def wordyQuery : Node :=
  .mk .document (.size 38)
    [(.definitions, .mk .operationDefinition (.operation .query) [
      (.comments, .mk .inlineComment (.text "type") []), (.name, .ofName "query"),
      (.selectionSet, .mk .selectionSet .none [
        (.selections, .mk .field .none [(.aliasName, .ofName "query"), (.name, .ofName "type"),
          (.arguments, .mk (.argumentSet .general) .none [
            (.arguments, .mk (.argument .general) .none [(.name, .ofName "on"),
              (.value, .mk .nullValue .none [])])])])])])]

/-- The first `query` is a keyword, the others are names. -/
theorem parseDocument_leaves_query :
    parseDocument "query query#type\n\x7bquery:type(on:null)\x7d" = .ok wordyQuery ∧
      ∃ owned, AssignsDocument owned wordyQuery.bare ∧
        owned.map Owned.token = [.name "query", .name "query", .punct .braceOpen, .name "query",
          .punct .colon, .name "type", .punct .parenOpen, .name "on", .punct .colon, .name "null",
          .punct .parenClose, .punct .braceClose] ∧
        owned.filter (·.owner.isLeaf) = [⟨.name "query", .name⟩, ⟨.name "query", .name⟩,
          ⟨.name "type", .name⟩, ⟨.name "on", .name⟩, ⟨.name "null", .nullValue⟩] := by
  have hparse : parseDocument "query query#type\n\x7bquery:type(on:null)\x7d" = .ok wordyQuery := by
    decide +kernel
  obtain ⟨⟨owned, hassigns, htokens⟩, hleaves⟩ := parseDocument_leaves hparse
  refine ⟨hparse, owned, hassigns, htokens.trans (by decide +kernel), ?_⟩
  exact (hleaves owned _ hassigns htokens).1.symm.trans (by decide +kernel)

end GraphQLTree
