import Mathlib.Data.List.Forall2
import GraphQLTree.Proofs.Grammar.Definitions
import GraphQLTree.Proofs.Grammar.Rereading
import GraphQLTree.Proofs.Token.Significant

/-!
# Printing documents

The text of a document is that of the pieces of its definitions, with line breaks between them, and of
the comments at its end, without the line breaks that it would start with (`Prints.document`). Those
make no difference to the words of a text (`Word.ofText_dropWhile`).
-/

namespace GraphQLTree

open Text (glue)

/-! ### Ignored characters -/

namespace Word

/-- What stands before a token makes no difference to its word. Whether a comment is inline depends on
the gap before the comment, but only behind a token. -/
private theorem ofScraps_gap (pending : List Comment) (gap gap' : List Char) (token : Token)
    (text : List Char) (rest : List Scrap) :
    ofScraps pending (⟨gap, token, text⟩ :: rest) =
      ofScraps pending (⟨gap', token, text⟩ :: rest) := by
  by_cases hc : ∃ comment, token = .comment comment
  · obtain ⟨comment, rfl⟩ := hc
    rw [ofScraps_comment, ofScraps_comment]
  · have hc : ∀ comment, token ≠ .comment comment := fun comment he => hc ⟨comment, he⟩
    by_cases h : token = .invalid ∨ inlineText? rest = none
    · rw [ofScraps_token pending hc h, ofScraps_token pending hc h]
    · obtain ⟨hv, hrest⟩ := not_or.1 h
      match rest, hrest with
      | ⟨gap'', .comment comment, written⟩ :: rest, hrest =>
        have hgap : Text.hasLineBreak gap'' = false := by simpa [inlineText?] using hrest
        rw [ofScraps_inline pending hc hv hgap, ofScraps_inline pending hc hv hgap]

/-- An ignored character in front of a text makes no difference to its words. -/
theorem ofText_cons_ignored {c : Char} (hc : Token.isIgnored c = true) (cs : List Char) :
    ofText (c :: cs) = ofText cs := by
  have hnext : Scrap.next? (c :: cs) =
      (Scrap.next? cs).map fun next => (⟨c :: next.1.gap, next.1.token, next.1.text⟩, next.2) := by
    simp only [Scrap.next?, List.dropWhile_cons_of_pos hc, List.takeWhile_cons_of_pos hc]
    cases cs.dropWhile Token.isIgnored <;> rfl
  cases h : Scrap.next? cs with
  | none =>
    rw [h] at hnext
    rw [ofText, ofText, Scrap.scanAll_of_none h, Scrap.scanAll_of_none hnext]
  | some next =>
    obtain ⟨⟨gap, token, text⟩, rest⟩ := next
    rw [h] at hnext
    rw [ofText, ofText, Scrap.scanAll_of_some h, Scrap.scanAll_of_some hnext]
    exact ofScraps_gap [] _ _ token text _

/-- The line breaks that a text starts with make no difference to its words. -/
theorem ofText_dropWhile (cs : List Char) : ofText (cs.dropWhile (· == '\n')) = ofText cs := by
  induction cs with
  | nil => rfl
  | cons c cs ih =>
    by_cases hc : c = '\n'
    · subst hc
      rw [List.dropWhile_cons_of_pos (by rfl), ih, ofText_cons_ignored (by decide)]
    · rw [List.dropWhile_cons_of_neg (by simpa using hc)]

end Word

/-! ### Pieces of documents -/

/-- The pieces of definitions, with line breaks between them. -/
def definitionPieces : List Child → List Piece
  | [] => []
  | c :: children => c.pieces ++ children.flatMap fun c => .lines 1 2 :: c.pieces

/-- The pieces of definitions and of the comments behind them. -/
def documentPieces (children : List Child) (comments : List Comment) : List Piece :=
  definitionPieces children ++ .lines 1 1 :: leadingPieces comments

theorem mem_documentPieces {children : List Child} {comments : List Comment} {piece : Piece}
    (h : piece ∈ documentPieces children comments) :
    (∃ c ∈ children, piece ∈ c.pieces) ∨ (∃ m n, piece = .lines m n) ∨
      piece ∈ leadingPieces comments := by
  rcases List.mem_append.1 h with h | h
  · cases children with
    | nil => cases h
    | cons c children =>
      rcases List.mem_append.1 h with h | h
      · exact .inl ⟨c, List.mem_cons_self, h⟩
      · obtain ⟨d, hd, h⟩ := List.mem_flatMap.1 h
        rcases List.mem_cons.1 h with rfl | h
        · exact .inr (.inl ⟨1, 2, rfl⟩)
        · exact .inl ⟨d, List.mem_cons_of_mem _ hd, h⟩
  · rcases List.mem_cons.1 h with rfl | h
    · exact .inr (.inl ⟨1, 1, rfl⟩)
    · exact .inr (.inr h)

/-- A document of so many bytes. -/
def Node.ofDefinitions (size : Nat) (definitions : List Node) (comments : List Comment) : Node :=
  .mk .document (.size size)
    (definitions.map (Slot.definitions, ·) ++ Node.ofComments .comments comments)

theorem Node.inSlot_ofDefinitions (size : Nat) (definitions : List Node) (comments : List Comment) :
    (ofDefinitions size definitions comments).inSlot .definitions = definitions := by
  have hentries : entriesIn .definitions (definitions.map (Slot.definitions, ·) ++
      ofComments .comments comments) = definitions.map (Slot.definitions, ·) := by
    rw [entriesIn_append, entriesIn_ofComments_of_ne (by decide), List.append_nil, entriesIn_map,
      if_pos rfl]
  have hnodes : (definitions.map (Slot.definitions, ·)).map Prod.snd = definitions := by
    rw [List.map_map]
    exact List.map_id _
  exact (congrArg (List.map Prod.snd) hentries).trans hnodes

variable {style : Style} {children : List Child}

/-- The texts of definitions with line breaks between them. -/
theorem Prints.definitions {c : Child}
    (hprints : ∀ d ∈ c :: children, Prints style .definition d.pieces d.node) :
    (children.map fun d => d.node.layout style (some .document)).foldl
        (fun out text => glue (glue out style.definitionBreak) text)
        (glue [] (c.node.layout style (some .document))) =
      Piece.render style.pretty (Piece.styled style (definitionPieces (c :: children))) := by
  have hlayout (d : Child) (hd : d ∈ c :: children) : d.node.layout style (some .document) =
      Piece.render style.pretty (Piece.styled style d.pieces) :=
    (hprints d hd).1 (some .document) (by decide)
  have hfold (ds : List Child) (hds : ∀ d ∈ ds, d ∈ c :: children) (out : List Piece) :
      (ds.map fun d => d.node.layout style (some .document)).foldl
          (fun out text => glue (glue out style.definitionBreak) text)
          (Piece.render style.pretty (Piece.styled style out)) =
        Piece.render style.pretty
          (Piece.styled style (out ++ ds.flatMap fun d => .lines 1 2 :: d.pieces)) := by
    induction ds generalizing out with
    | nil => simp
    | cons d ds ih =>
      have hmem := hds d List.mem_cons_self
      obtain ⟨-, hanchored, hknown⟩ := hprints d hmem
      have hstep : glue (glue (Piece.render style.pretty (Piece.styled style out))
            style.definitionBreak) (d.node.layout style (some .document)) =
          Piece.render style.pretty (Piece.styled style (out ++ .lines 1 2 :: d.pieces)) := by
        have hpieces : out ++ .lines 1 2 :: d.pieces = out ++ [.lines 1 2] ++ d.pieces := by simp
        rw [hlayout d hmem, hpieces, Piece.styled_append,
          Piece.render_append _ (hanchored.styled style).opens (hknown.styled style),
          Piece.styled_append]
        congr 1
        rw [Piece.render, Piece.render, Piece.putAll_append, Style.definitionBreak]
        cases style.pretty <;> rfl
      rw [List.map_cons, List.foldl_cons, hstep, ih fun d hd => hds d (List.mem_cons_of_mem _ hd)]
      simp
  rw [Text.nil_glue, hlayout c List.mem_cons_self]
  exact hfold children (fun d hd => List.mem_cons_of_mem _ hd) c.pieces

/-- The text of a document. -/
theorem Prints.document (hprints : ∀ c ∈ children, Prints style .definition c.pieces c.node)
    (hne : children ≠ []) (comments : List Comment) (size : Nat) (parent : Option Kind) :
    (Node.ofDefinitions size (children.map Child.node) comments).layout style parent =
      (Piece.render style.pretty
        (Piece.styled style (documentPieces children comments))).dropWhile (· == '\n') := by
  obtain ⟨c, children, rfl⟩ := List.exists_cons_of_ne_nil hne
  have hdefinitions : (printedIn .definitions (((((c :: children).map Child.node).map
        (Slot.definitions, ·)) ++ Node.ofComments .comments comments).map
          (Node.printed style .document))).map Printed.text =
      (c :: children).map fun d => d.node.layout style (some .document) := by
    rw [printedIn_map, entriesIn_append, entriesIn_ofComments_of_ne (by decide), List.append_nil,
      entriesIn_map, if_pos rfl]
    simp [Node.printed]
  have htexts : (printedIn .comments (((((c :: children).map Child.node).map
        (Slot.definitions, ·)) ++ Node.ofComments .comments comments).map
          (Node.printed style .document))).flatMap Printed.text =
      comments.flatMap fun comment => style.comment comment.text.toList := by
    rw [printedIn_map, entriesIn_append, entriesIn_map, if_neg (by decide), List.nil_append,
      entriesIn_ofComments]
    simp only [Node.ofComments, List.map_map, List.flatMap_map, Function.comp_apply, Node.printed,
      Node.layout_ofComment]
  have hdefs := Prints.definitions hprints
  have hcommentTexts (out : List Char) :
      Piece.putAll style.pretty (glue out ['\n']) (Piece.styled style (leadingPieces comments)) =
        glue out ['\n'] ++ comments.flatMap fun comment => style.comment comment.text.toList := by
    cases hkept : style.comments with
    | true => exact putAll_leading hkept (Text.endsLine_glue_lineFeed out) comments
    | false =>
      have hnil : (comments.flatMap fun comment => style.comment comment.text.toList) = [] :=
        List.flatMap_eq_nil_iff.2 fun comment _ => Style.comment_eq_nil hkept _
      rw [hnil, Piece.styled_leadingPieces_nil hkept, List.append_nil]
      rfl
  have hlines : Piece.styled style (.lines 1 1 :: leadingPieces comments) =
      .lines 1 1 :: Piece.styled style (leadingPieces comments) := rfl
  have hwrite (printed : List Printed) :
      writeNode style parent .document (.size size) printed = writeDocument style printed := rfl
  rw [Node.ofDefinitions, Node.layout, Node.layoutChildren_eq, hwrite, writeDocument, hdefinitions,
    htexts]
  simp only [List.map_cons]
  rw [hdefs, documentPieces, Piece.styled_append, hlines, Piece.render, Piece.render,
    Piece.putAll_append, ← hcommentTexts, ← Piece.put_lines]
  rfl

/-! ### Reading printed documents again -/

section

variable (hd : ∀ c ∈ children, Derives .definition c.marks c.pieces c.node)
include hd

/-- The pieces of a document are spaced in every style. -/
theorem Piece.spaced_document (style : Style) (comments : List Comment) :
    Spaced .clear (styled style (documentPieces children comments)) := by
  -- Anything may stand behind a line break, so what a definition ends in doesn't matter.
  have hlines {pieces : List Piece} (h : Spaced .clear pieces) (edge : Edge) {m n : Nat} :
      Spaced edge (.lines (m + 1) (n + 1) :: pieces) := ⟨trivial, by simpa [next] using h⟩
  have hleading (edge : Edge) : Spaced edge (styled style (leadingPieces comments)) := by
    induction comments generalizing edge with
    | nil => trivial
    | cons comment comments ih =>
      cases hkept : style.comments with
      | false =>
        rw [styled_leadingPieces_nil hkept]
        trivial
      | true =>
        have htail := ih (next edge (.leading (style.commentText comment.text)))
        rw [styled_leadingPieces hkept] at htail ⊢
        exact ⟨trivial, htail⟩
  have hdefinitions (edge : Edge) (ds : List Child)
      (hds : ∀ c ∈ ds, Derives .definition c.marks c.pieces c.node) {rest : List Piece}
      (hrest : ∀ edge, Spaced edge rest) :
      Spaced edge (styled style (ds.flatMap fun c => .lines 1 2 :: c.pieces) ++ rest) := by
    induction ds generalizing edge with
    | nil => exact hrest edge
    | cons c ds ih =>
      have htail (edge : Edge) := ih edge fun d hd => hds d (List.mem_cons_of_mem _ hd)
      have hc : Spaced .clear (styled style c.pieces ++
          (styled style (ds.flatMap fun c => .lines 1 2 :: c.pieces) ++ rest)) :=
        spaced_append.2 ⟨(hds c List.mem_cons_self).spaced style, htail _⟩
      rw [List.flatMap_cons, styled_append, List.append_assoc]
      exact hlines hc edge
  have hend (edge : Edge) : Spaced edge (styled style (.lines 1 1 :: leadingPieces comments)) :=
    hlines (hleading .clear) edge
  rw [documentPieces, styled_append]
  cases children with
  | nil => exact hend _
  | cons c children =>
    rw [definitionPieces, styled_append, List.append_assoc]
    exact spaced_append.2 ⟨(hd c List.mem_cons_self).spaced style,
      hdefinitions _ children (fun d hmem => hd d (List.mem_cons_of_mem _ hmem)) hend⟩

end

/-- Whether a definition is what comes of reading another one again that is printed in a style. -/
structure Child.Rereads (style : Style) (c c' : Child) : Prop where
  derives : Derives .definition c'.marks c'.pieces c'.node
  pieces_eq : c'.pieces = Piece.styled style c.pieces
  yields : Piece.Yields c'.pieces (c'.marks.map Mark.word)
  anchored : Piece.Anchored c'.pieces
  kept : ∀ mark ∈ c'.marks, mark.spare = false
  tokens_eq : Mark.writtenTokens c'.marks = Mark.writtenTokens c.marks
  bare_eq : c'.node.bare = c.node.bare

theorem Derives.exists_rereads {c : Child} (h : Derives .definition c.marks c.pieces c.node)
    (style : Style) : ∃ c', c.Rereads style c' := by
  obtain ⟨marks, node, hderives, hyields, hanchored, hkept, htokens, hbare⟩ := h.rereads style []
  exact ⟨⟨marks, Piece.styled style c.pieces, node⟩, hderives, rfl, hyields, hanchored, hkept, htokens,
    hbare⟩

/-- Definitions that are printed in a style are read again one by one. -/
theorem exists_rereads_definitions
    (hd : ∀ c ∈ children, Derives .definition c.marks c.pieces c.node) (style : Style) :
    ∃ children', List.Forall₂ (Child.Rereads style) children children' := by
  induction children with
  | nil => exact ⟨[], .nil⟩
  | cons c children ih =>
    obtain ⟨c', hc⟩ := (hd c List.mem_cons_self).exists_rereads style
    obtain ⟨children', h⟩ := ih fun d hd' => hd d (List.mem_cons_of_mem _ hd')
    exact ⟨c' :: children', .cons hc h⟩

section Rereads

variable {children' : List Child} (h : List.Forall₂ (Child.Rereads style) children children')
include h

/-- What holds of every definition that comes of reading one again. -/
theorem Child.Rereads.forall_mem {P : Child → Prop} (hP : ∀ c c', Child.Rereads style c c' → P c') :
    ∀ c' ∈ children', P c' := by
  induction h with
  | nil => simp
  | cons hc h ih => exact List.forall_mem_cons.2 ⟨hP _ _ hc, ih⟩

theorem Child.Rereads.map_bare :
    children'.map (fun c => c.node.bare) = children.map fun c => c.node.bare := by
  induction h with
  | nil => rfl
  | cons hc h ih => rw [List.map_cons, List.map_cons, ih, hc.bare_eq]

theorem Child.Rereads.tokens :
    (children'.flatMap Child.marks).map (fun mark => mark.word.token) =
      Mark.writtenTokens (children.flatMap Child.marks) := by
  induction h with
  | nil => rfl
  | cons hc h ih =>
    rw [List.flatMap_cons, List.flatMap_cons, Mark.writtenTokens_append, ← hc.tokens_eq, ← ih,
      List.map_append, Mark.writtenTokens_eq hc.kept]

/-- The pieces of definitions that are read again, and of the comments behind them, are those of the
printed document. -/
theorem Child.Rereads.documentPieces_eq (comments : List Comment) :
    documentPieces children' (style.blocks comments) =
      Piece.styled style (documentPieces children comments) := by
  have hrest {ds ds' : List Child} (h : List.Forall₂ (Child.Rereads style) ds ds') :
      ds'.flatMap (fun c => .lines 1 2 :: c.pieces) =
        Piece.styled style (ds.flatMap fun c => .lines 1 2 :: c.pieces) := by
    induction h with
    | nil => rfl
    | cons hc h ih =>
      rw [List.flatMap_cons, List.flatMap_cons, Piece.styled_append, ih, hc.pieces_eq]
      rfl
  rw [documentPieces, documentPieces, Piece.styled_append, Style.leadingPieces_blocks]
  congr 1
  cases h with
  | nil => rfl
  | cons hc h =>
    rw [definitionPieces, definitionPieces, Piece.styled_append, hrest h, hc.pieces_eq]

/-- The words of the pieces of a printed document. -/
theorem Child.Rereads.words_document (comments : List Comment) :
    Piece.words [] (Piece.styled style (documentPieces children comments)) =
      ((children'.flatMap Child.marks).map Mark.word, style.blocks comments) := by
  have hlines (rest : List Piece) (m n : Nat) : Piece.Parted (.lines m n :: rest) := by
    rintro text rest h
    cases h
  have hrest {ds ds' : List Child} (h : List.Forall₂ (Child.Rereads style) ds ds') :
      Piece.Yields (ds'.flatMap fun c => .lines 1 2 :: c.pieces)
        ((ds'.flatMap Child.marks).map Mark.word) ∧
      Piece.Parted (ds'.flatMap fun c => .lines 1 2 :: c.pieces) := by
    induction h with
    | nil => exact ⟨.nil, Piece.parted_nil⟩
    | @cons _ c' _ ds' hc h ih =>
      refine ⟨?_, by rw [List.flatMap_cons]; exact hlines _ _ _⟩
      have hbreak : Piece.Yields [.lines 1 2] [] := .space rfl
      have hhead := hbreak.append hc.yields hc.anchored.parted
      rw [List.flatMap_cons, List.flatMap_cons, List.map_append]
      exact hhead.append ih.1 ih.2
  have hdefinitions : Piece.Yields (definitionPieces children')
      ((children'.flatMap Child.marks).map Mark.word) := by
    cases h with
    | nil => exact .nil
    | cons hc h =>
      rw [definitionPieces, List.flatMap_cons, List.map_append]
      exact hc.yields.append (hrest h).1 (hrest h).2
  have hleading (pending : List Comment) {comments : List Comment} (hblock : AllBlock comments) :
      Piece.words pending (leadingPieces comments) = ([], pending ++ comments) := by
    induction comments generalizing pending with
    | nil => rw [List.append_nil]; rfl
    | cons comment comments ih =>
      obtain ⟨inline, text⟩ := comment
      obtain rfl : inline = false := hblock ⟨inline, text⟩ List.mem_cons_self
      have htail := ih (pending ++ [⟨false, text⟩]) fun c hc => hblock c (List.mem_cons_of_mem _ hc)
      rwa [List.append_assoc] at htail
  rw [← documentPieces_eq h, documentPieces, Piece.words_append [] _ (hlines _ _ _), hdefinitions,
    Piece.words_space [] rfl, hleading [] (style.allBlock_blocks comments), List.append_nil,
    List.nil_append]

end Rereads

end GraphQLTree
