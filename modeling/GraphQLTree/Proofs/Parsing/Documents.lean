import GraphQLTree.Proofs.Grammar.Documents
import GraphQLTree.Proofs.Grammar.Trimming
import GraphQLTree.Proofs.Parsing.Reparse

/-!
# Printed documents

A document that was parsed has derivations of its definitions, whose words are all words of the text
(`exists_definitions`). So what is printed of it has no lexical error, and its words are those of its
pieces (`ReadFrom.ofText_print`).
-/

namespace GraphQLTree

variable {style : Style} {children : List Child} {comments : List Comment}

/-- Definitions with the words that they were read from and the comments behind them. -/
structure ReadFrom (text : String) (children : List Child) (comments : List Comment) : Prop where
  ne_nil : children ≠ []
  derives : ∀ c ∈ children, Derives .definition c.marks c.pieces c.node
  apart : children.IsChain Child.Apart
  words_eq : Word.ofText text.toList = ((children.flatMap Child.marks).map Mark.word, comments)
  known : Mark.Known (children.flatMap Child.marks)
  sound : Mark.Sound (children.flatMap Child.marks)
  comments_sound : SoundComments comments

/-- Definitions whose words are all words of a text. -/
theorem ReadFrom.of_words {text : String} (hne : children ≠ [])
    (hderives : ∀ c ∈ children, Derives .definition c.marks c.pieces c.node)
    (happart : children.IsChain Child.Apart)
    (hwords : Word.ofText text.toList = ((children.flatMap Child.marks).map Mark.word, comments)) :
    ReadFrom text children comments := by
  have hproper : ∀ mark ∈ children.flatMap Child.marks, mark.word.token.IsProper := by
    intro mark hmark
    obtain ⟨c, hc, hmark⟩ := List.mem_flatMap.1 hmark
    exact (hderives c hc).isProper mark hmark
  have hlexed : Word.Lexed ((children.flatMap Child.marks).map Mark.word ++ []) := by
    have hlexed := Word.lexed_ofText text.toList
    rwa [hwords, ← List.append_nil ((children.flatMap Child.marks).map Mark.word)] at hlexed
  obtain ⟨hknown, hsound⟩ := Mark.known_of_lexed hlexed hproper
  have hcomments := Word.sound_trailing_ofText text.toList
  rw [hwords] at hcomments
  refine ⟨hne, hderives, happart, hwords, hknown, hsound ?_, hcomments⟩
  rw [List.append_nil, List.forall_mem_map]
  exact fun mark hmark => (hproper mark hmark).1

/-- A document that was parsed has definitions that its text was read as. -/
theorem exists_definitions {text : String} {document : Node}
    (h : parseDocument text = .ok document) :
    ∃ children comments, ReadFrom text children comments ∧
      document = Node.ofDefinitions (TokenStream.ofText text).size (children.map Child.node)
        comments := by
  rw [parseDocument, Target.parse] at h
  split at h
  · next node rest hread =>
    obtain rfl := Except.ok.inj h
    obtain ⟨nodes, lexemes, hnodes, hdone⟩ := Outcome.andThen_eq_done hread
    obtain ⟨rfl, children, rfl, hwords, hderives, happart⟩ := readDefinitions_sound hnodes
    split at hdone
    · cases hdone
    · next hempty =>
      injection hdone with hnode hrest
      have htext : Word.ofText text.toList =
          ((children.flatMap Child.marks).map Mark.word, (TokenStream.ofText text).trailing) := by
        rw [← hwords, TokenStream.ofText, TokenStream.map_word_lexemes, TokenStream.trailing_ofList]
      refine ⟨children, _, .of_words ?_ hderives happart htext, hnode.symm⟩
      rintro rfl
      exact hempty rfl
  · cases h
  · cases h

namespace ReadFrom

variable {text : String} (h : ReadFrom text children comments)
include h

/-- A text is parsed as the definitions that it was read as. -/
theorem parse : parseDocument text =
    .ok (Node.ofDefinitions (TokenStream.ofText text).size (children.map Child.node) comments) := by
  have hwords : (TokenStream.ofText text).lexemes.map Lexeme.word =
      (children.flatMap Child.marks).map Mark.word := by
    rw [TokenStream.ofText, TokenStream.map_word_lexemes, h.words_eq]
  have htrailing : (TokenStream.ofText text).trailing = comments := by
    rw [TokenStream.ofText, TokenStream.trailing_ofList, h.words_eq]
  have hlength : (TokenStream.ofText text).lexemes.length = (children.flatMap Child.marks).length := by
    simpa using congrArg List.length hwords
  have hdepth : Goal.depthFor (TokenStream.ofText text).lexemes =
      4 * ((children.flatMap Child.marks).length + 1) := by
    rw [Goal.depthFor, hlength]
  have hloops : (children.flatMap Child.marks).length ≤
      Goal.depthFor (TokenStream.ofText text).lexemes := by omega
  have hread := readDefinitions_complete h.derives h.apart hdepth.ge hloops hwords
  have hempty : (children.map Child.node).isEmpty = false := by
    simpa using h.ne_nil
  rw [parseDocument, Target.parse, TokenStream.read, TokenStream.readDocument]
  simp only [hread, Outcome.andThen, hempty, Bool.false_eq_true, if_false, htrailing]
  rfl

theorem prints (style : Style) : ∀ c ∈ children, Prints style .definition c.pieces c.node :=
  fun c hc => (h.derives c hc).prints (fun mark hmark => h.known mark (List.mem_flatMap.2 ⟨c, hc, hmark⟩))
    style

theorem known_document : Piece.Known (documentPieces children comments) := by
  intro piece hpiece
  rcases mem_documentPieces hpiece with ⟨c, hc, hpiece⟩ | ⟨m, n, rfl⟩ | hpiece
  · exact (h.prints .compact c hc).2.2 piece hpiece
  · trivial
  · exact Piece.Known.leading h.comments_sound piece hpiece

/-- The pieces of a document are sound in every style. -/
theorem sound_document (style : Style) :
    Piece.Sound (Piece.styled style (documentPieces children comments)) := by
  obtain ⟨children', hrereads⟩ := exists_rereads_definitions h.derives style
  refine (h.known_document.styled style).sound [] fun word hword => ?_
  rw [Child.Rereads.words_document hrereads] at hword
  obtain ⟨mark', hmark', rfl⟩ := List.mem_map.1 hword
  have htoken : mark'.word.token ∈ Mark.writtenTokens (children.flatMap Child.marks) := by
    rw [← Child.Rereads.tokens hrereads]
    exact List.mem_map_of_mem hmark'
  obtain ⟨mark, hmark, he⟩ := List.mem_map.1 htoken
  exact he ▸ h.sound mark (List.mem_filter.1 hmark).1

/-- A text has no lexical error if it was read as definitions, and its tokens other than comments are
theirs. -/
theorem tokenize_text : (tokenize text).2 = none ∧ Token.significant (tokenize text).1 =
    (children.flatMap Child.marks).map fun mark => mark.word.token := by
  have hvalid : (tokenize text).2 = none := by
    rw [tokenize_eq_none_iff, h.words_eq, List.forall_mem_map]
    exact fun mark hmark => (h.sound mark hmark).ne_invalid
  refine ⟨hvalid, ?_⟩
  rw [significant_tokenize hvalid, h.words_eq, List.map_map]
  rfl

/-- The text that is printed of a document. -/
theorem print_eq (style : Style) (size : Nat) :
    (Node.ofDefinitions size (children.map Child.node) comments).print style =
      String.ofList ((Piece.render style.pretty (Piece.styled style
        (documentPieces children comments))).dropWhile (· == '\n')) :=
  congrArg String.ofList (Prints.document (h.prints style) h.ne_nil comments size none)

/-- The words of the text that is printed of a document. -/
theorem ofText_print (style : Style) (size : Nat) :
    Word.ofText ((Node.ofDefinitions size (children.map Child.node) comments).print style).toList =
      Piece.words [] (Piece.styled style (documentPieces children comments)) := by
  rw [h.print_eq, String.toList_ofList, Word.ofText_dropWhile,
    Piece.ofText_render (Piece.spaced_document h.derives style comments) (h.sound_document style)]

/-- What is printed of a document has no lexical error, and its tokens other than comments are those that
are written. -/
theorem tokenize_print (style : Style) (size : Nat) :
    (tokenize ((Node.ofDefinitions size (children.map Child.node) comments).print style)).2 = none ∧
      Token.significant (tokenize ((Node.ofDefinitions size (children.map Child.node)
        comments).print style)).1 = Mark.writtenTokens (children.flatMap Child.marks) := by
  obtain ⟨children', hrereads⟩ := exists_rereads_definitions h.derives style
  have htext := h.ofText_print style size
  rw [Child.Rereads.words_document hrereads] at htext
  have htokens := Child.Rereads.tokens hrereads
  have hvalid : (tokenize ((Node.ofDefinitions size (children.map Child.node)
      comments).print style)).2 = none := by
    rw [tokenize_eq_none_iff, htext]
    intro word hword
    obtain ⟨mark', hmark', rfl⟩ := List.mem_map.1 hword
    have htoken := htokens ▸ List.mem_map_of_mem (f := fun mark : Mark => mark.word.token) hmark'
    obtain ⟨mark, hmark, he⟩ := List.mem_map.1 htoken
    have hsound := h.sound mark (List.mem_filter.1 hmark).1
    rw [he] at hsound
    exact hsound.ne_invalid
  refine ⟨hvalid, ?_⟩
  rw [significant_tokenize hvalid, htext, List.map_map, ← htokens]
  rfl

end ReadFrom

/-- What is printed of a parsed document, in any style, has no lexical error, and its tokens other than
comments are those of the source without the spare ones of some derivations of the definitions: the
delimiter before the first of some interfaces, union members or directive locations, and the keyword of
a query that is nothing but its selection set. -/
theorem parseDocument_print_tokens {text : String} {document : Node}
    (h : parseDocument text = .ok document) :
    ∃ children : List Child, document.inSlot .definitions = children.map Child.node ∧
      (∀ c ∈ children, Derives .definition c.marks c.pieces c.node) ∧
      Token.significant (tokenize text).1 =
        (children.flatMap Child.marks).map (fun mark => mark.word.token) ∧
      Token.Trims (Token.significant (tokenize text).1)
        (Mark.writtenTokens (children.flatMap Child.marks)) ∧
      ∀ style, (tokenize (document.print style)).2 = none ∧
        Token.significant (tokenize (document.print style)).1 =
          Mark.writtenTokens (children.flatMap Child.marks) := by
  obtain ⟨children, comments, hread, rfl⟩ := exists_definitions h
  have htokens := hread.tokenize_text.2
  have htrims (ds : List Child) (hds : ∀ d ∈ ds, Derives .definition d.marks d.pieces d.node) :
      Mark.Trims (ds.flatMap Child.marks) := by
    induction ds with
    | nil => exact .nil
    | cons d ds ih =>
      rw [List.flatMap_cons]
      exact (hds d List.mem_cons_self).trims.append (ih fun d hd => hds d (List.mem_cons_of_mem _ hd))
  refine ⟨children, Node.inSlot_ofDefinitions _ _ _, hread.derives, htokens, ?_,
    fun style => hread.tokenize_print style _⟩
  rw [htokens]
  exact htrims children hread.derives

/-- A union of one type, as it is parsed from ten bytes. -/
def unionDocument : Node :=
  Node.ofDefinitions 10 [.mk (.unionType .definition) .none [(.name, .ofName "A"),
    (.types, .mk .namedTypeSet .none [(.types, .mk .namedType .none [(.name, .ofName "B")])])]] []

/-- A leading pipe goes when a union is printed. -/
theorem parseDocument_print_tokens_union :
    parseDocument "union A=|B" = .ok unionDocument ∧
      ∃ children : List Child, unionDocument.inSlot .definitions = children.map Child.node ∧
        (∀ c ∈ children, Derives .definition c.marks c.pieces c.node) ∧
        Token.significant (tokenize "union A=|B").1 =
          (children.flatMap Child.marks).map (fun mark => mark.word.token) ∧
        Token.Trims (Token.significant (tokenize "union A=|B").1)
          (Mark.writtenTokens (children.flatMap Child.marks)) ∧
        ∀ style, (tokenize (unionDocument.print style)).2 = none ∧
          Token.significant (tokenize (unionDocument.print style)).1 =
            Mark.writtenTokens (children.flatMap Child.marks) :=
  ⟨by decide +kernel, parseDocument_print_tokens (by decide +kernel)⟩

end GraphQLTree
