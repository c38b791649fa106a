import GraphQLTree.Proofs.Comments.Lists
import GraphQLTree.Proofs.Grammar.WellFormed
import GraphQLTree.Proofs.Parsing.Reparse

/-!
# Parsing printed nodes that are well formed

A well-formed node without comments need not have been parsed to be parsed from what is printed of it
(`Target.parse_print_wellFormed`). It has a derivation from plain words, and these are the words of the
printed text, in any style, as there are no comments for a style to move, trim or drop.
-/

namespace GraphQLTree

section Plain

variable {goal : Goal} {marks : List Mark} {pieces : List Piece} {node : Node}

/-- What is derived from words without comments is printed without comments. -/
theorem Derives.commentTexts_eq_nil (h : Derives goal marks pieces node) (hplain : Mark.Plain marks) :
    Piece.commentTexts pieces = [] := by
  have hmarks : Mark.commentTexts marks = [] := List.flatMap_eq_nil_iff.2 fun mark hmark => by
    rw [(hplain mark hmark).bare]
    rfl
  have hlists : node.commentLists.flatten = [] := by
    have hperm := h.interleaved_marks.perm
    rwa [hmarks, List.perm_nil] at hperm
  have hperm := h.interleaved_pieces.perm
  rwa [hlists, List.nil_perm] at hperm

/-- Pieces without comments are the same in every style. -/
theorem Piece.styled_eq_self {pieces : List Piece} (h : commentTexts pieces = []) (style : Style) :
    styled style pieces = pieces := by
  refine (List.filterMap_congr fun piece hmem => ?_).trans List.filterMap_some
  have hnone := List.filterMap_eq_nil_iff.1 h piece hmem
  cases piece <;> first | rfl | cases hnone

/-- Words of pieces without comments have no comments. -/
theorem Piece.bare_of_words {pieces : List Piece} (h : commentTexts pieces = []) {word : Word}
    (hword : word ∈ (words [] pieces).1) : word.comments = [] := by
  have htexts := comments_words [] pieces
  rw [h] at htexts
  have hnil := List.map_eq_nil_iff.1 htexts
  exact List.flatMap_eq_nil_iff.1 (List.append_eq_nil_iff.1 hnil).1 word hword

/-- The text of a node that is derived from plain words has just these words. -/
theorem Derives.ofText_print (h : Derives goal marks pieces node) (hfits : goal.fits none = true)
    (hplain : Mark.Plain marks) (style : Style) :
    Word.ofText (node.print style).toList = (marks.map Mark.word, []) := by
  have hcomments := h.commentTexts_eq_nil hplain
  have hsound : Mark.Sound marks := fun mark hmark => (hplain mark hmark).sound
  have hknown : Mark.Known marks := fun mark hmark => by
    refine ⟨.inl (hsound mark hmark), (h.isProper mark hmark).2, fun comment hcomment => ?_⟩
    rw [(hplain mark hmark).bare] at hcomment
    cases hcomment
  obtain ⟨marks', node', -, hyields, -, hkept, htokens, -⟩ := h.rereads style []
  have hyields : Piece.words [] (Piece.styled style pieces) = (marks'.map Mark.word, []) := hyields
  rw [Mark.writtenTokens_eq hkept, Mark.writtenTokens_eq fun mark hmark => (hplain mark hmark).kept]
    at htokens
  rw [Node.print, (h.prints hknown style).1 none hfits, String.toList_ofList,
    Piece.ofText_render (h.spaced style) ((h.sound_styled_iff hknown style).2 hsound), hyields]
  -- Both have the same tokens and no comments.
  have hbare : ∀ mark ∈ marks', mark.word.comments = [] := fun mark hmark => by
    rw [Piece.styled_eq_self hcomments] at hyields
    exact Piece.bare_of_words hcomments (hyields ▸ List.mem_map_of_mem hmark)
  have hword (mark : Mark) (hmark : mark.word.comments = []) :
      mark.word = ⟨mark.word.token, []⟩ := by
    rw [← hmark]
  have hwords {marks : List Mark} (hmarks : ∀ mark ∈ marks, mark.word.comments = []) :
      marks.map Mark.word = (marks.map fun mark => mark.word.token).map (⟨·, []⟩) := by
    rw [List.map_map]
    exact List.map_congr_left fun mark hmark => hword mark (hmarks mark hmark)
  rw [hwords hbare, hwords hplain.bare, htokens]

end Plain

namespace Target

/-- A goal that can be parsed has the derivations of a goal that is printed alone as it is anywhere, and
that takes all kinds of nodes that the goal is for. -/
theorem exists_fitting {g : Goal} (hg : goal g ∈ parsable) :
    ∃ g' : Goal, g'.fits none = true ∧ g'.takesAll g.content = true ∧
      ∀ marks pieces node, Derives g' marks pieces node → Derives g marks pieces node := by
  have hcheck : parsable.all
      (passes fun g => g = .inputValues || g.fits none && g.takesAll g.content) = true := by
    decide
  by_cases hvalues : g = .inputValues
  · subst hvalues
    exact ⟨.kind .inputValueDefinitionSet, rfl, by decide, fun _ _ _ => Derives.inputValues⟩
  · have hg := List.all_eq_true.1 hcheck _ hg
    simp only [passes, hvalues, decide_false, Bool.false_or, Bool.and_eq_true] at hg
    exact ⟨g, hg.1, hg.2, fun _ _ _ => id⟩

/-- What is printed of a well-formed node without comments is parsed as that node, whether it was ever
parsed before or not. -/
theorem parse_print_wellFormed {g : Goal} (hg : goal g ∈ parsable) {node : Node}
    (hkind : g.content.accepts node.kind = true) (hnode : node.WellFormed)
    (hbare : node.uncommented = node) (style : Style) :
    (goal g).parse (node.print style) = .ok node := by
  obtain ⟨g', hfits, htakes, hwiden⟩ := exists_fitting hg
  obtain ⟨c, rfl, hderives, hplain⟩ := hnode.writes hbare (Goal.takes_of_takesAll htakes hkind)
  exact (hwiden _ _ _ hderives).parse (hderives.ofText_print hfits hplain style)

/-- A field with an alias and an argument, made by hand. -/
def greeting : Node :=
  .mk .field .none [(.aliasName, .ofName "greeting"), (.name, .ofName "say"),
    (.arguments, .mk (.argumentSet .general) .none [
      (.arguments, .mk (.argument .general) .none [(.name, .ofName "times"),
        (.value, .mk .intValue (.text "2") [])]),
      (.arguments, .mk (.argument .general) .none [(.name, .ofName "text"),
        (.value, .mk .stringValue (.string "\"hi\"" true) [])])])]

/-- The field is parsed from what is printed of it, as any selection. -/
theorem parse_print_greeting : greeting.WellFormed ∧ greeting.uncommented = greeting ∧
    (goal .selection).parse (greeting.print ⟨false, true⟩) = .ok greeting := by
  have hgreeting : greeting.WellFormed := by decide
  have hbare : greeting.uncommented = greeting := by decide
  exact ⟨hgreeting, hbare,
    parse_print_wellFormed (by decide) (by decide) hgreeting hbare ⟨false, true⟩⟩

end Target

end GraphQLTree
