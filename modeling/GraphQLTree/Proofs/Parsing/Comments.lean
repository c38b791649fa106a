import GraphQLTree.Proofs.Comments.Lists
import GraphQLTree.Proofs.Parsing.Documents

/-!
# Comments of documents

The comments of a text are interleaved from the comment lists of the document that it is parsed as, and
the comments of what is printed of the document are interleaved from the same lists, as the style writes
them (`parseDocument_comments`).
-/

namespace GraphQLTree

/-- The comment lists of a document are those of its definitions and the list behind them. -/
theorem Node.interleaved_ofDefinitions (size : Nat) (comments : List Comment) {children : List Child}
    {f : Child → List String} (h : ∀ c ∈ children, Interleaved c.node.commentLists (f c)) :
    Interleaved (ofDefinitions size (children.map Child.node) comments).commentLists
      (children.flatMap f ++ Comment.texts comments) := by
  have hdefinitions : Interleaved (children.flatMap fun c => c.node.commentLists)
      (children.flatMap f) := by
    induction children with
    | nil => exact .nil (by simp)
    | cons c children ih =>
      exact (h c List.mem_cons_self).append (ih fun d hd => h d (List.mem_cons_of_mem _ hd))
  have hslot : ∀ entry ∈ (children.map Child.node).map (Slot.definitions, ·),
      entry.1 ∉ commentSlots := by
    intro entry hentry
    obtain ⟨node, -, rfl⟩ := List.mem_map.1 hentry
    simp [commentSlots]
  have hlists : listsIn commentSlots (ofComments .comments comments) =
      [[] ++ Comment.texts comments, [], []] := by
    simp [listsIn, commentSlots, textsIn_ofComments, textsIn_ofComments_of_ne]
  have hnodes : ((children.map Child.node).map (Slot.definitions, ·)).flatMap
      (fun entry => entry.2.commentLists) = children.flatMap fun c => c.node.commentLists := by
    rw [List.flatMap_map, List.flatMap_map]
  have hempty : ∀ list ∈ ([[], []] : List (List String)), list = [] := by simp
  have hdocument := ((Interleaved.nil hempty).append (hdefinitions.append
    (.nil (commentLists_ofComments .comments comments)))).around [] (Comment.texts comments)
  rw [ofDefinitions, commentLists_mk, listsIn_append_left hslot, hlists, List.flatMap_append, hnodes]
  simpa using hdocument

/-- The comments of the pieces of a document. -/
theorem Piece.commentTexts_document (children : List Child) (comments : List Comment) :
    commentTexts (documentPieces children comments) =
      (children.flatMap fun c => commentTexts c.pieces) ++ Comment.texts comments := by
  have hspace (piece : Piece) (h : piece.ink = none) (pieces : List Piece) :
      commentTexts (piece :: pieces) = commentTexts pieces := commentTexts_cons_space h pieces
  have hrest (ds : List Child) : commentTexts (ds.flatMap fun c => .lines 1 2 :: c.pieces) =
      ds.flatMap fun c => commentTexts c.pieces := by
    induction ds with
    | nil => rfl
    | cons d ds ih =>
      rw [List.flatMap_cons, List.flatMap_cons, commentTexts_append, ih, hspace _ rfl]
  rw [documentPieces, commentTexts_append, hspace _ rfl, commentTexts_leading]
  cases children with
  | nil => rfl
  | cons c children => rw [definitionPieces, commentTexts_append, hrest, List.flatMap_cons]

/-- The comments of a text are interleaved from the comment lists of the document that it is parsed as.
What is printed of the document in a style that keeps comments has no lexical error, and its comments are
interleaved from the same lists, as the style writes them. -/
theorem parseDocument_comments {text : String} {document : Node} (h : parseDocument text = .ok document) :
    Interleaved document.commentLists (Token.commentTexts (tokenize text).1) ∧
      ∀ style : Style, style.comments = true → (tokenize (document.print style)).2 = none ∧
        Interleaved (document.commentLists.map (List.map style.commentText))
          (Token.commentTexts (tokenize (document.print style)).1) := by
  obtain ⟨children, comments, hread, rfl⟩ := exists_definitions h
  refine ⟨?_, fun style hkept => ?_⟩
  · have htexts : Token.commentTexts (tokenize text).1 =
        (children.flatMap fun c => Mark.commentTexts c.marks) ++ Comment.texts comments := by
      rw [commentTexts_tokenize hread.tokenize_text.1, hread.words_eq, List.map_append,
        List.flatMap_map, List.flatMap_assoc, List.map_flatMap]
      simp only [Mark.commentTexts, Comment.texts, List.map_flatMap]
    rw [htexts]
    exact Node.interleaved_ofDefinitions _ comments fun c hc => (hread.derives c hc).interleaved_marks
  · have hvalid := (hread.tokenize_print style (TokenStream.ofText text).size).1
    have htexts : Token.commentTexts (tokenize ((Node.ofDefinitions (TokenStream.ofText text).size
        (children.map Child.node) comments).print style)).1 =
          ((children.flatMap fun c => Piece.commentTexts c.pieces) ++ Comment.texts comments).map
            style.commentText := by
      rw [commentTexts_tokenize hvalid, hread.ofText_print, ← Piece.commentTexts_document,
        ← Piece.commentTexts_styled hkept]
      exact Piece.comments_words [] _
    refine ⟨hvalid, ?_⟩
    rw [htexts]
    exact (Node.interleaved_ofDefinitions _ comments
      fun c hc => (hread.derives c hc).interleaved_pieces).map style.commentText

/-- A query with comments behind its tokens and at the end of the text, which has fourteen bytes. -/
def commentedQuery : Node :=
  Node.ofDefinitions 14
    [.mk .operationDefinition (.operation .query) [(.selectionSet, .mk .selectionSet .none
      (Node.ofComments .commentsOpeningBracket [⟨true, "1"⟩] ++ [(.selections, .mk .field .none
          (Node.ofComments .comments [⟨true, "2"⟩] ++ [(.name, .ofName "a")]))] ++
        Node.ofComments .commentsClosingBracket [⟨true, "3"⟩]))]]
    [⟨false, "4"⟩]

/-- The comments of a query are kept. -/
theorem parseDocument_comments_query :
    parseDocument "\x7b#1\na#2\n\x7d#3\n#4" = .ok commentedQuery ∧
      Interleaved commentedQuery.commentLists
        (Token.commentTexts (tokenize "\x7b#1\na#2\n\x7d#3\n#4").1) ∧
      ∀ style : Style, style.comments = true → (tokenize (commentedQuery.print style)).2 = none ∧
        Interleaved (commentedQuery.commentLists.map (List.map style.commentText))
          (Token.commentTexts (tokenize (commentedQuery.print style)).1) :=
  ⟨by decide +kernel, parseDocument_comments (by decide +kernel)⟩

end GraphQLTree
