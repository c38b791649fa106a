import GraphQLTree.Proofs.Grammar.Breaks
import GraphQLTree.Proofs.Parsing.Typed

/-!
# Line breaks of printed documents

What is printed of a parsed document, in any style, has clean line breaks (`parseDocument_print_clean`):
outside strings and comments, no space is next to a line break, two line breaks in a row stand only
between two definitions of pretty text, and the text ends with one line break and starts with none.
-/

namespace GraphQLTree

namespace Node

/-- A document of some definitions, with some comments behind them. -/
def documentOf (definitions comments : List Node) : Node :=
  .mk .document .none
    (definitions.map (Slot.definitions, ·) ++ comments.map (Slot.comments, ·))

/-- Whether one text is what is printed of some of the definitions that a document starts with, and
another one what is printed of its other definitions and its comments. -/
def SplitsInto (document : Node) (style : Style) (before after : List Char) : Prop :=
  ∃ a b, document.inSlot .definitions = a ++ b ∧ a ≠ [] ∧ b ≠ [] ∧
    before = ((documentOf a []).print style).toList ∧
    after = ((documentOf b (document.inSlot .comments)).print style).toList

/-- How many bytes a document has makes no difference to what is printed of it. -/
theorem print_documentOf (style : Style) (size : Nat) (definitions : List Node)
    (comments : List Comment) :
    (documentOf definitions (comments.map ofComment)).print style =
      (ofDefinitions size definitions comments).print style := by
  have hcomments : (comments.map ofComment).map (Slot.comments, ·) = ofComments .comments comments := by
    rw [ofComments, List.map_map]
    rfl
  rw [print, print, documentOf, ofDefinitions, hcomments, layout, layout]
  rfl

end Node

namespace ReadFrom

variable {text : String} {style : Style} {children : List Child} {comments : List Comment}
  (h : ReadFrom text children comments)
include h

/-- The definitions of a parsed document can be written on lines of their own. -/
theorem isBlock (style : Style) : ∀ c ∈ children, c.IsBlock style := by
  intro c hc
  refine ⟨h.derives c hc, (h.prints style c hc).2.1, fun piece hpiece => ?_⟩
  obtain ⟨piece', hmem, he⟩ := List.mem_filterMap.1 hpiece
  refine h.sound_document style piece (List.mem_filterMap.2 ⟨piece', List.mem_append_left _ ?_, he⟩)
  obtain ⟨d, ds, rfl⟩ := List.exists_cons_of_ne_nil h.ne_nil
  rcases List.mem_cons.1 hc with rfl | hc
  · exact List.mem_append_left _ hmem
  · exact List.mem_append_right _ (List.mem_flatMap.2 ⟨c, hc, List.mem_cons_of_mem _ hmem⟩)

/-- What is printed of some of the definitions of a parsed document. -/
theorem toList_print {part : List Child} (hpart : part ⊆ children) (hne : part ≠ [])
    (comments : List Comment) (size : Nat) (style : Style) :
    ((Node.ofDefinitions size (part.map Child.node) comments).print style).toList =
      documentText style part comments := by
  rw [Node.print, String.toList_ofList]
  exact Prints.document (fun c hc => h.prints style c (hpart hc)) hne comments size none

end ReadFrom

/-- What is printed of a parsed document, in any style, has clean line breaks. Outside strings and
comments, no space is next to a line break. Two line breaks stand in a row only in pretty text, between
what is printed of some definitions and of those behind them, and three nowhere. The text doesn't start
with a line break and ends with exactly one. -/
theorem parseDocument_print_clean {text : String} {document : Node}
    (h : parseDocument text = .ok document) (style : Style) :
    Text.CleanBreaks (document.print style).toList fun before after =>
      style.pretty = true ∧ document.SplitsInto style before after := by
  obtain ⟨children, comments, hread, rfl⟩ := exists_definitions h
  have hblocks := hread.isBlock style
  rw [hread.toList_print (List.Subset.refl _) hread.ne_nil]
  refine (cleanBreaks_document hread.ne_nil hblocks hread.comments_sound).mono ?_
  rintro before after ⟨hpretty, a, b, rfl, ha, hb, rfl, rfl⟩
  refine ⟨hpretty, a.map Child.node, b.map Child.node, ?_, by simpa, by simpa, ?_, ?_⟩
  · rw [Node.inSlot_ofDefinitions, List.map_append]
  · have hprint := Node.print_documentOf style 0 (a.map Child.node) []
    rw [List.map_nil] at hprint
    rw [hprint, hread.toList_print (List.subset_append_left _ _) ha]
  · rw [Node.inSlot_comments_ofDefinitions, Node.print_documentOf style 0,
      hread.toList_print (List.subset_append_right _ _) hb]

/-- Two scalars, the first with a comment behind it, as they are parsed from twenty-one bytes. -/
def scalars : Node :=
  Node.ofDefinitions 21
    [.mk (.scalarType .definition) .none
      (Node.ofComments .comments [⟨true, " a"⟩] ++ [(.name, .ofName "A")]),
      .mk (.scalarType .definition) .none [(.name, .ofName "B")]] []

/-- An empty line stands behind the comment, between the two scalars. -/
theorem parseDocument_print_clean_scalars :
    parseDocument "scalar A # a\nscalar B" = .ok scalars ∧
      scalars.print ⟨true, true⟩ = "scalar A # a\n\nscalar B\n" ∧
      Text.CleanBreaks (scalars.print ⟨true, true⟩).toList fun before after =>
        (⟨true, true⟩ : Style).pretty = true ∧ scalars.SplitsInto ⟨true, true⟩ before after := by
  have hscalars : parseDocument "scalar A # a\nscalar B" = .ok scalars := by decide +kernel
  exact ⟨hscalars, by decide +kernel, parseDocument_print_clean hscalars ⟨true, true⟩⟩

end GraphQLTree
