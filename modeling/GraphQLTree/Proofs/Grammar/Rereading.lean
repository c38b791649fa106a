import GraphQLTree.Proofs.Grammar.Spacing
import GraphQLTree.Proofs.Tree.Bare

/-!
# Reading printed text again

The pieces that a node is printed as, in a style, are those of another derivation (`Derives.rereads`).
It has the tokens that are not spare and makes the same node but for comments: comments that stood
around a node may belong to its first token now, which can be a token of a child, and a comment on a
line of its own is no inline comment any more. But the derivation has the same pieces, so what is
printed of the new node is the same text.
-/

namespace GraphQLTree

namespace Mark

/-- The marks of the words that are written. -/
def written (marks : List Mark) : List Mark :=
  marks.filter fun mark => !mark.spare

/-- The tokens of the words that are written. -/
def writtenTokens (marks : List Mark) : List Token :=
  (written marks).map fun mark => mark.word.token

@[simp] theorem writtenTokens_nil : writtenTokens [] = [] := rfl

theorem writtenTokens_append (a b : List Mark) :
    writtenTokens (a ++ b) = writtenTokens a ++ writtenTokens b := by
  simp [writtenTokens, written]

theorem writtenTokens_eq {marks : List Mark} (h : ∀ mark ∈ marks, mark.spare = false) :
    writtenTokens marks = marks.map fun mark => mark.word.token := by
  rw [writtenTokens, written, List.filter_eq_self.2 (by simpa using h)]

/-- Words that are all written are not spare. -/
theorem kept_of_writtenTokens_eq {marks : List Mark}
    (h : writtenTokens marks = marks.map fun mark => mark.word.token) :
    ∀ mark ∈ marks, mark.spare = false := by
  have hlength : (written marks).length = marks.length := by
    simpa [writtenTokens] using congrArg List.length h
  have hall := List.filter_eq_self.1 ((List.filter_sublist (l := marks)).eq_of_length hlength)
  simpa using hall

end Mark

/-! ### Words of pieces -/

namespace Piece

/-- Whether pieces don't start with a comment that belongs to the token before it. -/
def Parted (pieces : List Piece) : Prop :=
  ∀ text rest, pieces ≠ trailing text :: rest

theorem Anchored.parted {pieces : List Piece} (h : Anchored pieces) : Parted pieces := by
  rintro text rest rfl
  cases h

theorem parted_nil : Parted [] := by
  rintro text rest h
  cases h

theorem Parted.append {a b : List Piece} (ha : Parted a) (hb : Parted b) : Parted (a ++ b) := by
  cases a with
  | nil => exact hb
  | cons piece a =>
    intro text rest h
    exact ha text a (by rw [(List.cons.inj h).1])

/-- The words of pieces are read from left to right. -/
theorem words_append (pending : List Comment) (a : List Piece) {b : List Piece} (hb : Parted b) :
    words pending (a ++ b) =
      ((words pending a).1 ++ (words (words pending a).2 b).1, (words (words pending a).2 b).2) := by
  fun_induction words pending a with
  | case1 pending => rfl
  | case2 pending text pieces ih => exact ih
  | case3 pending text pieces ih => exact ih
  | case4 pending t text pieces ih =>
    rw [List.cons_append, List.cons_append, words, ih]
    rfl
  | case5 pending t pieces h ih =>
    have hparted : Parted (pieces ++ b) := Parted.append h hb
    rw [List.cons_append, words_token pending t hparted, ih]
    rfl
  | case6 pending piece pieces h1 h2 h3 h4 ih =>
    have hink : piece.ink = none := by
      cases piece with
      | leading text => exact (h1 text rfl).elim
      | trailing text => exact (h2 text rfl).elim
      | token t => exact (h4 t rfl).elim
      | _ => rfl
    rw [List.cons_append, words_space pending hink]
    exact ih

/-- Whether pieces are some words and nothing else. -/
def Yields (pieces : List Piece) (ws : List Word) : Prop :=
  words [] pieces = (ws, [])

namespace Yields

theorem nil : Yields [] [] := rfl

theorem space {piece : Piece} (h : piece.ink = none) : Yields [piece] [] :=
  words_space [] h []

theorem append {a b : List Piece} {ws vs : List Word} (ha : Yields a ws) (hb : Yields b vs)
    (hparted : Parted b) : Yields (a ++ b) (ws ++ vs) := by
  rw [Yields, words_append [] a hparted, ha]
  exact congrArg (fun p => (ws ++ p.1, p.2)) hb

/-- A comment behind the last token belongs to it. -/
theorem trailing {a : List Piece} {t : Token} {ws : List Word} {comments : List Comment}
    (h : Yields (a ++ [.token t]) (ws ++ [⟨t, comments⟩])) (text : String) :
    Yields (a ++ [.token t] ++ [.trailing text]) (ws ++ [⟨t, comments ++ [⟨true, text⟩]⟩]) := by
  have hparted (b : List Piece) : Parted (.token t :: b) := by
    rintro text rest h
    cases h
  rw [Yields, words_append [] a (hparted _)] at h
  obtain ⟨rfl, hlast⟩ := List.append_inj' (Prod.ext_iff.1 h).1 rfl
  obtain rfl := (Word.mk.inj (List.singleton_inj.1 hlast)).2
  rw [Yields, List.append_assoc, List.singleton_append, words_append [] a (hparted _)]
  rfl

end Yields

end Piece

/-! ### Comments on lines of their own -/

/-- A comment on a line of its own. -/
def Comment.block (comment : Comment) : Comment :=
  ⟨false, comment.text⟩

/-- What becomes of comments on lines of their own in a style. -/
def Style.blocks (style : Style) (comments : List Comment) : List Comment :=
  if style.comments then comments.map fun comment => ⟨false, style.commentText comment.text⟩ else []

theorem leadingPieces_append (a b : List Comment) :
    leadingPieces (a ++ b) = leadingPieces a ++ leadingPieces b :=
  List.map_append

theorem leadingPieces_block (comments : List Comment) :
    leadingPieces (comments.map Comment.block) = leadingPieces comments := by
  simp [leadingPieces, Comment.block]

theorem Style.leadingPieces_blocks (style : Style) (comments : List Comment) :
    leadingPieces (style.blocks comments) = Piece.styled style (leadingPieces comments) := by
  rw [Style.blocks]
  split
  · next hkept => rw [Piece.styled_leadingPieces hkept, leadingPieces, List.map_map]; rfl
  · next hdropped =>
    rw [Piece.styled_leadingPieces_nil (Bool.eq_false_iff.2 hdropped)]
    rfl

/-- No comment is an inline comment. -/
def AllBlock (comments : List Comment) : Prop :=
  ∀ comment ∈ comments, comment.inline = false

theorem allBlock_block (comments : List Comment) : AllBlock (comments.map Comment.block) := by
  intro comment hmem
  obtain ⟨c, -, rfl⟩ := List.mem_map.1 hmem
  rfl

theorem Style.allBlock_blocks (style : Style) (comments : List Comment) :
    AllBlock (style.blocks comments) := by
  rw [Style.blocks]
  split
  · intro comment hmem
    obtain ⟨c, -, rfl⟩ := List.mem_map.1 hmem
    rfl
  · exact fun comment hmem => by cases hmem

theorem allBlock_nil : AllBlock [] := by
  rintro comment ⟨⟩

theorem AllBlock.append {a b : List Comment} (ha : AllBlock a) (hb : AllBlock b) :
    AllBlock (a ++ b) :=
  List.forall_mem_append.2 ⟨ha, hb⟩

/-- Comments that are all on lines of their own stand before what they are around. -/
theorem AllBlock.around {comments : List Comment} (h : AllBlock comments) (body : List Piece)
    (own : Bool) : around comments body own = leadingPieces comments ++ body := by
  rcases around_cases comments body own with ⟨-, he⟩ | ⟨before, text, -, rfl, -⟩
  · exact he
  · cases h ⟨true, text⟩ (by simp)

theorem Piece.yields_leading {comments : List Comment} (h : AllBlock comments) (t : Token) :
    Yields (leadingPieces comments ++ [.token t]) [⟨t, comments⟩] := by
  have hwords (pending : List Comment) : words pending (leadingPieces comments ++ [.token t]) =
      ([⟨t, pending ++ comments⟩], []) := by
    induction comments generalizing pending with
    | nil =>
      rw [List.append_nil]
      rfl
    | cons comment comments ih =>
      obtain ⟨inline, text⟩ := comment
      obtain rfl : inline = false := h ⟨inline, text⟩ List.mem_cons_self
      have htail := ih (fun c hc => h c (List.mem_cons_of_mem _ hc)) (pending ++ [⟨false, text⟩])
      rwa [List.append_assoc] at htail
  exact hwords []

/-- A token with comments around it, in a style and behind more comments, is the token with other
comments around it. -/
theorem exists_around (style : Style) {pending : List Comment} (hpending : AllBlock pending)
    (comments : List Comment) (t : Token) :
    ∃ comments', around comments' [.token t] true =
        leadingPieces pending ++ Piece.styled style (around comments [.token t] true) ∧
      Piece.Yields (around comments' [.token t] true) [⟨t, comments'⟩] := by
  have hblocks (before : List Comment) := hpending.append (style.allBlock_blocks before)
  have hpieces (before : List Comment) : leadingPieces (pending ++ style.blocks before) ++ [.token t] =
      leadingPieces pending ++ Piece.styled style (leadingPieces before ++ [.token t]) := by
    rw [leadingPieces_append, Style.leadingPieces_blocks, Piece.styled_append, List.append_assoc]
    rfl
  -- The token without a comment behind it.
  have hplain (before : List Comment) : ∃ comments', around comments' [.token t] true =
        leadingPieces pending ++ Piece.styled style (leadingPieces before ++ [.token t]) ∧
      Piece.Yields (around comments' [.token t] true) [⟨t, comments'⟩] := by
    refine ⟨pending ++ style.blocks before, ?_, ?_⟩
    · rw [(hblocks before).around, hpieces]
    · rw [(hblocks before).around]
      exact Piece.yields_leading (hblocks before) t
  rcases around_cases comments [.token t] true with ⟨-, he⟩ | ⟨before, text, -, -, he⟩
  · rw [he]
    exact hplain comments
  · rw [he, Piece.styled_append]
    cases hkept : style.comments with
    | false =>
      rw [Piece.styled_trailing_eq_nil hkept, List.append_nil]
      exact hplain before
    | true =>
      -- The comment behind the token is kept, as the last of its comments.
      have haround : around (pending ++ style.blocks before ++ [⟨true, style.commentText text⟩])
          [.token t] true =
          leadingPieces (pending ++ style.blocks before) ++ [.token t] ++
            [.trailing (style.commentText text)] := by
        simp [around]
      have hyields : Piece.Yields (leadingPieces (pending ++ style.blocks before) ++ [.token t] ++
          [.trailing (style.commentText text)])
          ([] ++ [⟨t, pending ++ style.blocks before ++ [⟨true, style.commentText text⟩]⟩]) :=
        .trailing (Piece.yields_leading (hblocks before) t) _
      refine ⟨pending ++ style.blocks before ++ [⟨true, style.commentText text⟩], ?_, ?_⟩
      · rw [haround, hpieces, Piece.styled_trailing hkept, List.append_assoc]
      · rw [haround]
        exact hyields

/-! ### Elements -/

/-- Whether pieces are those of a derivation whose words they are, and which makes a node with some
tokens. -/
def Rereads (goal : Goal) (tokens : List Token) (node : Node) (pieces : List Piece) : Prop :=
  ∃ marks node', Derives goal marks pieces node' ∧ Piece.Yields pieces (marks.map Mark.word) ∧
    Piece.Anchored pieces ∧ (∀ mark ∈ marks, mark.spare = false) ∧
    Mark.writtenTokens marks = tokens ∧ node'.bare = node.bare

namespace Element

/-- Whether an element is read again from its pieces in a style. -/
def Rereads (style : Style) : Element → Prop
  | space piece => piece.ink = none
  | own slot _ spare gift => slot.holdsComments = true ∧ (spare = true → gift = .nothing)
  | child slot goal c => slot.holdsComments = false ∧ ∀ pending, GraphQLTree.Rereads goal
      (Mark.writtenTokens c.marks) c.node (leadingPieces pending ++ Piece.styled style c.pieces)

end Element

namespace Elements

/-- Whether elements are other ones without spare words and with other comments. -/
structure Rewritten (elements elements' : List Element) : Prop where
  shapes_eq : shapes elements' = Shape.written (shapes elements)
  derived : ∀ element ∈ elements', element.Derived
  kept : ∀ mark ∈ marks elements', mark.spare = false
  tokens_eq : Mark.writtenTokens (marks elements') = Mark.writtenTokens (marks elements)
  bare_eq : Node.bareChildren (entries elements') = Node.bareChildren (entries elements)

namespace Rewritten

theorem nil : Rewritten [] [] :=
  ⟨rfl, by simp, by simp, rfl, rfl⟩

theorem append {a a' b b' : List Element} (ha : Rewritten a a') (hb : Rewritten b b') :
    Rewritten (a ++ b) (a' ++ b') where
  shapes_eq := by
    rw [shapes_append, shapes_append, Shape.written_append, ha.shapes_eq, hb.shapes_eq]
  derived := List.forall_mem_append.2 ⟨ha.derived, hb.derived⟩
  kept := by
    rw [marks_append]
    exact List.forall_mem_append.2 ⟨ha.kept, hb.kept⟩
  tokens_eq := by
    rw [marks_append, marks_append, Mark.writtenTokens_append, Mark.writtenTokens_append,
      ha.tokens_eq, hb.tokens_eq]
  bare_eq := by
    rw [entries_append, entries_append, Node.bareChildren_append, Node.bareChildren_append,
      ha.bare_eq, hb.bare_eq]

theorem space (piece : Piece) : Rewritten [.space piece] [.space piece] :=
  ⟨rfl, by simp [Element.Derived], by simp, rfl, rfl⟩

/-- An own token may have any comments. -/
theorem own {slot : Slot} (hslot : slot.holdsComments = true) (t : Token)
    (comments comments' : List Comment) (gift : Gift) :
    Rewritten [.own slot ⟨t, comments⟩ false gift] [.own slot ⟨t, comments'⟩ false gift] where
  shapes_eq := rfl
  derived := by simp [Element.Derived]
  kept := by simp
  tokens_eq := by simp [Mark.writtenTokens, Mark.written]
  bare_eq := by
    simp [Node.bareChildren_append, Node.bareChildren_ofComments hslot]

/-- A spare token goes. -/
theorem spare {slot : Slot} (hslot : slot.holdsComments = true) (word : Word) :
    Rewritten [.own slot word true .nothing] [] where
  shapes_eq := rfl
  derived := by simp
  kept := by simp
  tokens_eq := by simp [Mark.writtenTokens, Mark.written]
  bare_eq := by simp [Node.bareChildren_ofComments hslot]

theorem child {slot : Slot} (hslot : slot.holdsComments = false) {goal : Goal} {c c' : Child}
    (hderives : Derives goal c'.marks c'.pieces c'.node)
    (hkept : ∀ mark ∈ c'.marks, mark.spare = false)
    (htokens : Mark.writtenTokens c'.marks = Mark.writtenTokens c.marks)
    (hbare : c'.node.bare = c.node.bare) :
    Rewritten [.child slot goal c] [.child slot goal c'] where
  shapes_eq := rfl
  derived := by simpa [Element.Derived] using hderives
  kept := by simpa using hkept
  tokens_eq := by simpa using htokens
  bare_eq := by simp [Node.bareChildren_cons, hslot, hbare]

/-- The last own token may have any comments. -/
theorem recomment {elements init : List Element} {slot : Slot} (hslot : slot.holdsComments = true)
    {t : Token} {comments : List Comment} {gift : Gift}
    (h : Rewritten elements (init ++ [.own slot ⟨t, comments⟩ false gift]))
    (comments' : List Comment) :
    Rewritten elements (init ++ [.own slot ⟨t, comments'⟩ false gift]) where
  shapes_eq := by simpa using h.shapes_eq
  derived := by
    intro element hmem
    rcases List.mem_append.1 hmem with hmem | hmem
    · exact h.derived element (List.mem_append_left _ hmem)
    · obtain rfl := List.mem_singleton.1 hmem
      trivial
  kept := by
    have hkept := h.kept
    rw [marks_append] at hkept ⊢
    exact List.forall_mem_append.2 ⟨(List.forall_mem_append.1 hkept).1, by simp⟩
  tokens_eq := by
    rw [← h.tokens_eq]
    simp [Mark.writtenTokens, Mark.written]
  bare_eq := by
    rw [← h.bare_eq]
    simp [Node.bareChildren_append, Node.bareChildren_ofComments hslot]

end Rewritten

variable {style : Style}

/-- An element other than a space is read again behind some comments. -/
theorem exists_first {element : Element} (h : element.Rereads style)
    (hopens : Shape.opens [element.shape] = true) {pending : List Comment}
    (hpending : AllBlock pending) :
    ∃ element', Rewritten [element] [element'] ∧
      leadingPieces element'.comments ++ element'.pieces =
        leadingPieces pending ++ Piece.styled style element.pieces ∧
      Piece.Yields (leadingPieces element'.comments ++ element'.pieces)
        (element'.marks.map Mark.word) ∧
      Piece.Anchored (leadingPieces element'.comments ++ element'.pieces) ∧
      AllBlock element'.comments ∧ (pending = [] → element'.comments = []) := by
  cases element with
  | space piece => cases hopens
  | own slot word spare gift =>
    obtain ⟨t, comments⟩ := word
    obtain rfl : spare = false := by simpa [Shape.opens] using hopens
    by_cases hslot : slot = .comments
    · subst hslot
      have htoken : Piece.Anchored [.token t] := trivial
      -- Comments of the node stand around the body, so that the token has none but the pending
      -- ones.
      exact ⟨.own .comments ⟨t, pending⟩ false gift, .own rfl t comments pending gift, rfl,
        Piece.yields_leading hpending t, htoken.leading pending, hpending, id⟩
    · -- A bracket keeps the comments to itself.
      obtain ⟨comments', hpieces, hyields⟩ := exists_around style hpending comments t
      have htoken : Piece.Anchored [.token t] := trivial
      have hcomments (comments : List Comment) :
          (Element.own slot ⟨t, comments⟩ false gift).comments = [] := by
        cases slot <;> first | rfl | exact absurd rfl hslot
      have hown (comments : List Comment) : (Element.own slot ⟨t, comments⟩ false gift).pieces =
          around comments [.token t] true := by
        cases slot <;> first | rfl | exact absurd rfl hslot
      refine ⟨.own slot ⟨t, comments'⟩ false gift, .own h.1 t comments comments' gift, ?_, ?_, ?_, ?_,
        fun _ => hcomments comments'⟩
      · rw [hcomments, hown, hown]
        exact hpieces
      · rw [hcomments, hown]
        exact hyields
      · rw [hcomments, hown]
        exact htoken.around comments' true
      · rw [hcomments]
        exact fun comment hmem => by cases hmem
  | child slot goal c =>
    obtain ⟨hslot, hchild⟩ := h
    -- A child is read again with the pending comments in front of it, which it keeps.
    obtain ⟨marks, node, hderives, hyields, hanchored, hkept, htokens, hbare⟩ := hchild pending
    exact ⟨.child slot goal ⟨marks, leadingPieces pending ++ Piece.styled style c.pieces, node⟩,
      .child hslot hderives hkept htokens hbare, rfl, hyields, hanchored,
      fun comment hmem => (by cases hmem), fun _ => rfl⟩

/-- Elements behind other ones are read again from their pieces. -/
theorem exists_rest {elements : List Element} (h : ∀ element ∈ elements, element.Rereads style) :
    ∃ elements', Rewritten elements elements' ∧ comments elements' = [] ∧
      pieces elements' = Piece.styled style (pieces elements) ∧
      Piece.Yields (pieces elements') ((marks elements').map Mark.word) ∧
      Piece.Parted (pieces elements') := by
  induction elements with
  | nil => exact ⟨[], .nil, rfl, rfl, .nil, Piece.parted_nil⟩
  | cons element elements ih =>
    obtain ⟨es, hes, hcomments, hpieces, hyields, hparted⟩ :=
      ih fun e he => h e (List.mem_cons_of_mem _ he)
    have hstyled : Piece.styled style (pieces (element :: elements)) =
        Piece.styled style element.pieces ++ pieces es := by
      rw [pieces_cons, Piece.styled_append, hpieces]
    have helement := h element List.mem_cons_self
    -- An element that opens with a token is read as the first one of a body is, with nothing
    -- pending.
    by_cases hopens : Shape.opens [element.shape] = true
    · obtain ⟨e, he, hpiecese, hyieldse, hanchored, -, hnone⟩ :=
        exists_first helement hopens allBlock_nil
      have hnone := hnone rfl
      simp only [hnone, leadingPieces, List.map_nil, List.nil_append] at hpiecese hyieldse hanchored
      refine ⟨e :: es, he.append hes, ?_, ?_, ?_, hanchored.parted.append hparted⟩
      · rw [comments_cons, hnone, hcomments, List.nil_append]
      · rw [pieces_cons, hstyled, hpiecese]
      · rw [pieces_cons, marks_cons, List.map_append]
        exact hyieldse.append hyields hparted
    · cases element with
      | space piece =>
        have hkept : piece.styled? style = some piece := by
          cases piece <;> first | rfl | cases helement
        have hpiece : Piece.Parted [piece] := by
          rintro text rest hp
          cases hp
          cases helement
        refine ⟨.space piece :: es, (Rewritten.space piece).append hes, hcomments, ?_, ?_,
          hpiece.append hparted⟩
        · rw [pieces_cons, hstyled]
          simp [Piece.styled, hkept]
        · exact (Piece.Yields.space helement).append hyields hparted
      | own slot word spare gift =>
        -- A spare token isn't written, so it isn't there when the text is read again.
        obtain rfl : spare = true := by simpa [Shape.opens] using hopens
        obtain rfl := helement.2 rfl
        exact ⟨es, (Rewritten.spare helement.1 word).append hes, hcomments, by rw [hstyled]; rfl,
          hyields, hparted⟩
      | child slot goal c => exact absurd rfl hopens

/-- Elements that open with a token are read again behind some comments. -/
theorem exists_body {elements : List Element} (h : ∀ element ∈ elements, element.Rereads style)
    (hopens : Shape.opens (shapes elements) = true) {pending : List Comment}
    (hpending : AllBlock pending) :
    ∃ elements', Rewritten elements elements' ∧
      leadingPieces (comments elements') ++ pieces elements' =
        leadingPieces pending ++ Piece.styled style (pieces elements) ∧
      Piece.Yields (leadingPieces (comments elements') ++ pieces elements')
        ((marks elements').map Mark.word) ∧
      Piece.Anchored (leadingPieces (comments elements') ++ pieces elements') ∧
      AllBlock (comments elements') := by
  cases elements with
  | nil => cases hopens
  | cons element elements =>
    have hopens' : Shape.opens [element.shape] = true := by
      cases element <;> exact hopens
    obtain ⟨e, he, hpiecese, hyieldse, hanchored, hblock, -⟩ :=
      exists_first (h element List.mem_cons_self) hopens' hpending
    obtain ⟨es, hes, hcomments, hpieces, hyields, hparted⟩ :=
      exists_rest fun e he => h e (List.mem_cons_of_mem _ he)
    have htext : leadingPieces (comments (e :: es)) ++ pieces (e :: es) =
        leadingPieces e.comments ++ e.pieces ++ pieces es := by
      rw [comments_cons, hcomments, List.append_nil, pieces_cons, List.append_assoc]
    refine ⟨e :: es, he.append hes, ?_, ?_, ?_, ?_⟩
    · rw [htext, hpiecese, pieces_cons, Piece.styled_append, hpieces, List.append_assoc]
    · rw [htext, marks_cons, List.map_append]
      exact hyieldse.append hyields hparted
    · rw [htext]
      exact hanchored.append _
    · rw [comments_cons, hcomments, List.append_nil]
      exact hblock

end Elements

/-- Shapes that end in an own token end in one that is written. -/
theorem Shape.exists_concat_of_endsOwn {shapes : List Shape} (h : endsOwn shapes = true) :
    ∃ init slot token gift, shapes = init ++ [.own slot token false gift] := by
  induction shapes with
  | nil => cases h
  | cons shape shapes ih =>
    cases shapes with
    | nil =>
      cases shape with
      | own slot token spare gift =>
        obtain rfl : spare = false := by simpa [endsOwn] using h
        exact ⟨[], slot, token, gift, rfl⟩
      | _ => cases h
    | cons shape' shapes =>
      obtain ⟨init, slot, token, gift, heq⟩ := ih (by cases shape <;> exact h)
      exact ⟨shape :: init, slot, token, gift, by rw [heq, List.cons_append]⟩

theorem Shape.endsOwn_concat (init : List Shape) (slot : Slot) (token : Token) (gift : Gift) :
    endsOwn (init ++ [.own slot token false gift]) = true := by
  induction init with
  | nil => rfl
  | cons shape init ih =>
    cases init with
    | nil => cases shape <;> rfl
    | cons shape' init => cases shape <;> exact ih

namespace Elements

variable {style : Style}

/-- What ends in an own token does so after it is rewritten. -/
theorem Rewritten.exists_concat {init elements : List Element} {t : Token} {comments : List Comment}
    {gift : Gift} (h : Rewritten (init ++ [.own .comments ⟨t, comments⟩ false gift]) elements) :
    ∃ init' comments', elements = init' ++ [.own .comments ⟨t, comments'⟩ false gift] := by
  have hshapes : shapes elements = Shape.written (shapes init) ++ [.own .comments t false gift] := by
    rw [h.shapes_eq, shapes_append, Shape.written_append]
    rfl
  obtain ⟨init', last, rfl, -, hlast⟩ := exists_append_of_shapes hshapes
  obtain ⟨comments', rfl⟩ := eq_own_of_shapes hlast
  exact ⟨init', comments', rfl⟩

section Trailing

variable (init : List Element) (t : Token) (cs : List Comment) (gift : Gift) (text : String)

/-- An inline comment of the last own token stands behind it. -/
private theorem around_trailing :
    around (comments (init ++ [.own .comments ⟨t, cs ++ [⟨true, text⟩]⟩ false gift]))
        (pieces (init ++ [.own .comments ⟨t, cs ++ [⟨true, text⟩]⟩ false gift]))
        (Shape.endsOwn (shapes (init ++ [.own .comments ⟨t, cs ++ [⟨true, text⟩]⟩ false gift]))) =
      leadingPieces (comments (init ++ [.own .comments ⟨t, cs⟩ false gift])) ++
        pieces (init ++ [.own .comments ⟨t, cs⟩ false gift]) ++ [.trailing text] := by
  have hends : Shape.endsOwn
      (shapes (init ++ [.own .comments ⟨t, cs ++ [⟨true, text⟩]⟩ false gift])) = true := by
    rw [shapes_append]
    exact Shape.endsOwn_concat ..
  have hcomments (cs : List Comment) : comments (init ++ [.own .comments ⟨t, cs⟩ false gift]) =
      comments init ++ cs := by
    simp [Element.comments]
  have hpieces (cs : List Comment) : pieces (init ++ [.own .comments ⟨t, cs⟩ false gift]) =
      pieces init ++ [.token t] := by
    rw [pieces_append]
    rfl
  rw [hends, hcomments, hcomments, hpieces, hpieces, ← List.append_assoc]
  simp [around]

/-- The comment behind the last own token is read as one of its comments. -/
private theorem yields_trailing
    (h : Piece.Yields (leadingPieces (comments (init ++ [.own .comments ⟨t, cs⟩ false gift])) ++
        pieces (init ++ [.own .comments ⟨t, cs⟩ false gift]))
      ((marks (init ++ [.own .comments ⟨t, cs⟩ false gift])).map Mark.word)) :
    Piece.Yields (leadingPieces (comments (init ++ [.own .comments ⟨t, cs⟩ false gift])) ++
        pieces (init ++ [.own .comments ⟨t, cs⟩ false gift]) ++ [.trailing text])
      ((marks (init ++ [.own .comments ⟨t, cs ++ [⟨true, text⟩]⟩ false gift])).map Mark.word) := by
  have hmarks (cs : List Comment) :
      (marks (init ++ [.own .comments ⟨t, cs⟩ false gift])).map Mark.word =
        (marks init).map Mark.word ++ [⟨t, cs⟩] := by
    simp
  have hpieces : pieces (init ++ [.own .comments ⟨t, cs⟩ false gift]) =
      pieces init ++ [.token t] := by
    rw [pieces_append]
    rfl
  rw [hmarks, hpieces, ← List.append_assoc] at h
  rw [hmarks, hpieces, ← List.append_assoc]
  exact h.trailing text

end Trailing

/-- A body with comments around it is read again behind some comments. The comment behind it belongs
to its last token, which is its own. -/
theorem exists_around_body {elements : List Element}
    (h : ∀ element ∈ elements, element.Rereads style)
    (hopens : Shape.opens (shapes elements) = true)
    (hlast : comments elements ≠ [] → ∀ slot word spare gift,
      .own slot word spare gift ∈ elements → slot = .comments)
    {pending : List Comment} (hpending : AllBlock pending) :
    ∃ elements', Rewritten elements elements' ∧
      around (comments elements') (pieces elements') (Shape.endsOwn (shapes elements')) =
        leadingPieces pending ++ Piece.styled style
          (around (comments elements) (pieces elements) (Shape.endsOwn (shapes elements))) ∧
      Piece.Yields
        (around (comments elements') (pieces elements') (Shape.endsOwn (shapes elements')))
        ((marks elements').map Mark.word) ∧
      Piece.Anchored
        (around (comments elements') (pieces elements') (Shape.endsOwn (shapes elements'))) := by
  have hbody (before : List Comment) :=
    exists_body h hopens (hpending.append (style.allBlock_blocks before))
  have hpieces (before : List Comment) :
      leadingPieces (pending ++ style.blocks before) ++ Piece.styled style (pieces elements) =
        leadingPieces pending ++ Piece.styled style (leadingPieces before ++ pieces elements) := by
    rw [leadingPieces_append, Style.leadingPieces_blocks, Piece.styled_append, List.append_assoc]
  -- The body without a comment behind it.
  have hplain (before : List Comment) : ∃ elements', Rewritten elements elements' ∧
      around (comments elements') (pieces elements') (Shape.endsOwn (shapes elements')) =
        leadingPieces pending ++ Piece.styled style (leadingPieces before ++ pieces elements) ∧
      Piece.Yields
        (around (comments elements') (pieces elements') (Shape.endsOwn (shapes elements')))
        ((marks elements').map Mark.word) ∧
      Piece.Anchored
        (around (comments elements') (pieces elements') (Shape.endsOwn (shapes elements'))) := by
    obtain ⟨es, hes, heq, hyields, hanchored, hblock⟩ := hbody before
    refine ⟨es, hes, ?_, ?_, ?_⟩ <;> rw [hblock.around]
    · rw [heq, hpieces]
    · exact hyields
    · exact hanchored
  rcases around_cases (comments elements) (pieces elements) (Shape.endsOwn (shapes elements)) with
    ⟨-, he⟩ | ⟨before, text, hown, hcomments, he⟩
  · rw [he]
    exact hplain (comments elements)
  · rw [he, Piece.styled_append]
    cases hkept : style.comments with
    | false =>
      rw [Piece.styled_trailing_eq_nil hkept, List.append_nil]
      exact hplain before
    | true =>
      obtain ⟨es, hes, heq, hyields, hanchored, hblock⟩ := hbody before
      -- The last element is an own token, to which the comment is added.
      obtain ⟨init, slot, t, gift, hshapes⟩ := Shape.exists_concat_of_endsOwn hown
      obtain ⟨fs, gs, rfl, -, hgs⟩ := exists_append_of_shapes hshapes
      obtain ⟨comments', rfl⟩ := eq_own_of_shapes hgs
      obtain rfl := hlast (by simp [hcomments]) slot ⟨t, comments'⟩ false gift (by simp)
      obtain ⟨init', cs, rfl⟩ := hes.exists_concat
      refine ⟨_, hes.recomment rfl (cs ++ [⟨true, style.commentText text⟩]), ?_, ?_, ?_⟩ <;>
        rw [around_trailing]
      · rw [heq, Piece.styled_trailing hkept, hpieces, List.append_assoc]
      · exact yields_trailing _ _ _ _ _ hyields
      · exact hanchored.append _

end Elements

/-! ### Nodes -/

namespace Shape

/-- Whether a token that isn't written gives nothing but comments. -/
def SparesNothing : Shape → Prop
  | own _ _ spare gift => spare = true → gift = .nothing
  | _ => True

variable {shapes : List Shape} (h : ∀ shape ∈ shapes, shape.SparesNothing)
include h

theorem atom?_written : atom? (written shapes) = atom? shapes := by
  induction shapes with
  | nil => rfl
  | cons shape shapes ih =>
    have htail := ih fun s hs => h s (List.mem_cons_of_mem _ hs)
    have hhead := h shape List.mem_cons_self
    rw [← List.singleton_append, written_append, atom?_append, atom?_append, htail]
    congr 1
    cases shape with
    | own slot token spare gift =>
      cases spare with
      | true =>
        obtain rfl := hhead rfl
        rfl
      | false => rfl
    | _ => rfl

theorem slots_written : slots (written shapes) = slots shapes := by
  induction shapes with
  | nil => rfl
  | cons shape shapes ih =>
    have htail := ih fun s hs => h s (List.mem_cons_of_mem _ hs)
    have hhead := h shape List.mem_cons_self
    rw [← List.singleton_append, written_append, slots_append, slots_append, htail]
    congr 1
    cases shape with
    | own slot token spare gift =>
      cases spare with
      | true =>
        obtain rfl := hhead rfl
        rfl
      | false => rfl
    | _ => rfl

end Shape

theorem SpellItems.sparesNothing {items : List Item} {shapes : List Shape}
    (h : SpellItems items shapes) : ∀ shape ∈ shapes, shape.SparesNothing := by
  intro shape hmem
  obtain ⟨part, -, hmakes⟩ := h.makes shape hmem
  cases shape with
  | own slot token spare gift => exact hmakes.2.2.1
  | _ => trivial

/-- Elements without spare words and with other comments make the same node but for comments. -/
theorem Elements.Rewritten.finish_bare {elements elements' : List Element}
    (h : Elements.Rewritten elements elements')
    (hspares : ∀ shape ∈ Elements.shapes elements, shape.SparesNothing) (p : Production) :
    (p.finish elements').bare = (p.finish elements).bare := by
  rw [Production.finish, Production.finish, Node.bare_mk, Node.bare_mk, Node.bareChildren_arrange,
    Node.bareChildren_arrange, h.bare_eq, h.shapes_eq, Shape.atom?_written hspares]

section Productions

variable {style : Style} {goal : Goal} {p : Production} {description : Option Child}
  {elements : List Element}

/-- A description is read again from its pieces, with a line break behind. -/
theorem Elements.exists_described {c : Child}
    (h : ∀ pending, Rereads (.kind .stringValue) (Mark.writtenTokens c.marks) c.node
      (leadingPieces pending ++ Piece.styled style c.pieces)) (pending : List Comment) :
    ∃ c' : Child, Rewritten (descriptionElements (some c)) (descriptionElements (some c')) ∧
      pieces (descriptionElements (some c')) =
        leadingPieces pending ++ Piece.styled style (pieces (descriptionElements (some c))) ∧
      Piece.Yields (pieces (descriptionElements (some c')))
        ((marks (descriptionElements (some c'))).map Mark.word) ∧
      Piece.Anchored (pieces (descriptionElements (some c'))) := by
  obtain ⟨marks', node', hderives, hyields, hanchored, hkept, htokens, hbare⟩ := h pending
  have hlines : Piece.Parted [.lines 0 1] := by
    rintro text rest h
    cases h
  refine ⟨⟨marks', leadingPieces pending ++ Piece.styled style c.pieces, node'⟩,
    (Rewritten.child rfl hderives hkept htokens hbare).append (.space _), ?_, ?_, ?_⟩
  · simp only [descriptionElements, pieces_cons, pieces_nil, Element.pieces, List.append_nil,
      Piece.styled_append, List.append_assoc]
    rfl
  · simpa [descriptionElements] using hyields.append (Piece.Yields.space rfl) hlines
  · exact hanchored.append _

/-- The elements of a production are read again if its children are. -/
theorem Production.rereads_elements (hp : p.isReadable = true)
    (hspells : SpellItems p.rule.items (Elements.shapes elements))
    (hchildren : ∀ slot subgoal c, .child slot subgoal c ∈ elements → ∀ pending, Rereads subgoal
      (Mark.writtenTokens c.marks) c.node (leadingPieces pending ++ Piece.styled style c.pieces)) :
    ∀ element ∈ elements, element.Rereads style := by
  intro element hmem
  have hshape := List.mem_map_of_mem (f := Element.shape) hmem
  have htidy := hspells.isTidy (items_isReadable hp).2 _ hshape
  cases element with
  | space piece =>
    obtain ⟨part, -, hspace⟩ := hspells.makes _ hshape
    have hspace : piece ∈ [.soft, .hard, .comma] := hspace
    simp only [List.mem_cons, List.not_mem_nil, or_false] at hspace
    rcases hspace with rfl | rfl | rfl <;> rfl
  | own slot word spare gift => exact ⟨htidy.1, hspells.sparesNothing _ hshape⟩
  | child slot subgoal c => exact ⟨htidy, hchildren slot subgoal c hmem⟩

/-- If there are comments around a node, they are those of all its own tokens. -/
theorem Production.eq_comments_of_own (hp : p.isReadable = true)
    (hspells : SpellItems p.rule.items (Elements.shapes elements))
    (hne : Elements.comments elements ≠ []) (slot : Slot) (word : Word) (spare : Bool) (gift : Gift)
    (hmem : .own slot word spare gift ∈ elements) : slot = .comments := by
  rcases (isOrderly hp).isOpen_or_isShut with ⟨-, hopen⟩ | hshut
  · obtain ⟨part, hpart, hmakes⟩ := hspells.makes _ (List.mem_map_of_mem hmem)
    exact hmakes.eq_comments (List.all_eq_true.1 hopen part hpart)
  · exact absurd (Elements.comments_eq_nil hspells.makes hshut) hne

/-- Rewritten elements are spelled by the same rule. -/
theorem Production.derives_rewritten (hgoal : p ∈ goal.productions) (hp : p.isReadable = true)
    (hdescribed : description.isSome = true → p.rule.described = true)
    (hspells : SpellItems p.rule.items (Elements.shapes elements))
    (hdemand : p.demands = true → Shape.hasParts (Elements.shapes elements) = true)
    (hquery : p = .of .operationDefinition → Shape.isShorthand (Elements.shapes elements) = false)
    (description' : Option Child) {elements' : List Element}
    (hsome : description'.isSome = description.isSome)
    (hdescription : Elements.Rewritten (descriptionElements description)
      (descriptionElements description'))
    (helements : Elements.Rewritten elements elements') :
    Derives goal (Elements.marks (descriptionElements description' ++ elements'))
      (Elements.pieces (descriptionElements description') ++
        around (Elements.comments elements') (Elements.pieces elements')
          (Shape.endsOwn (Elements.shapes elements')))
      (p.finish (descriptionElements description' ++ elements')) := by
  have hspares := hspells.sparesNothing
  refine .production hgoal hp (fun h => hdescribed (hsome ▸ h)) ?_ ?_ ?_ ?_ ?_
  · rw [helements.shapes_eq]
    exact hspells.written
  · rw [helements.shapes_eq, Shape.hasParts, Shape.slots_written hspares]
    exact hdemand
  · rw [helements.shapes_eq, Shape.isShorthand, Shape.atom?_written hspares,
      Shape.slots_written hspares]
    exact hquery
  · intro c hc
    obtain rfl := hc
    exact hdescription.derived (.child .description (.kind .stringValue) c) List.mem_cons_self
  · exact fun slot subgoal c hmem => helements.derived _ hmem

/-- A description spares nothing either. -/
theorem SpellItems.sparesNothing_described {items : List Item}
    (hspells : SpellItems items (Elements.shapes elements)) :
    ∀ shape ∈ Elements.shapes (descriptionElements description ++ elements),
      shape.SparesNothing := by
  intro shape hmem
  rw [Elements.shapes_append] at hmem
  rcases List.mem_append.1 hmem with hmem | hmem
  · cases description with
    | none => cases hmem
    | some c =>
      simp only [descriptionElements, Elements.shapes_cons, Elements.shapes_nil, Element.shape,
        List.mem_cons, List.not_mem_nil, or_false] at hmem
      rcases hmem with rfl | rfl <;> trivial
  · exact hspells.sparesNothing shape hmem

/-- A node that is written by a rule is read again from its pieces. -/
theorem Production.rereads (hgoal : p ∈ goal.productions) (hp : p.isReadable = true)
    (hdescribed : description.isSome = true → p.rule.described = true)
    (hspells : SpellItems p.rule.items (Elements.shapes elements))
    (hdemand : p.demands = true → Shape.hasParts (Elements.shapes elements) = true)
    (hquery : p = .of .operationDefinition → Shape.isShorthand (Elements.shapes elements) = false)
    (hdescription : ∀ c ∈ description, ∀ pending, Rereads (.kind .stringValue)
      (Mark.writtenTokens c.marks) c.node (leadingPieces pending ++ Piece.styled style c.pieces))
    (hchildren : ∀ slot subgoal c, .child slot subgoal c ∈ elements → ∀ pending, Rereads subgoal
      (Mark.writtenTokens c.marks) c.node (leadingPieces pending ++ Piece.styled style c.pieces))
    {pending : List Comment} (hpending : AllBlock pending) :
    Rereads goal (Mark.writtenTokens (Elements.marks (descriptionElements description ++ elements)))
      (p.finish (descriptionElements description ++ elements))
      (leadingPieces pending ++ Piece.styled style
        (Elements.pieces (descriptionElements description) ++
          around (Elements.comments elements) (Elements.pieces elements)
            (Shape.endsOwn (Elements.shapes elements)))) := by
  have hbody {before : List Comment} (hbefore : AllBlock before) :=
    Elements.exists_around_body (rereads_elements hp hspells hchildren) (Production.opens hp hspells)
      (eq_comments_of_own hp hspells) hbefore
  -- Without its spare tokens the node holds the same, as they give it nothing but comments.
  have hspares : ∀ shape ∈ Elements.shapes (descriptionElements description ++ elements),
      shape.SparesNothing := hspells.sparesNothing_described
  cases description with
  | none =>
    obtain ⟨es, hes, hpieces, hyields, hanchored⟩ := hbody hpending
    have hnew := derives_rewritten hgoal hp hdescribed hspells hdemand hquery none rfl .nil hes
    simp only [descriptionElements, List.nil_append, Elements.pieces_nil] at hnew ⊢
    rw [hpieces] at hnew hyields hanchored
    exact ⟨_, _, hnew, hyields, hanchored, hes.kept, hes.tokens_eq, hes.finish_bare hspares p⟩
  | some c =>
    -- The pending comments go to the description, and none are left for the body.
    obtain ⟨c', hc, hpiecesc, hyieldsc, hanchoredc⟩ :=
      Elements.exists_described (hdescription c rfl) pending
    obtain ⟨es, hes, hpieces, hyields, hanchored⟩ := hbody allBlock_nil
    have hnew := derives_rewritten hgoal hp hdescribed hspells hdemand hquery (some c') rfl hc hes
    have htext : leadingPieces pending ++ Piece.styled style
        (Elements.pieces (descriptionElements (some c)) ++
          around (Elements.comments elements) (Elements.pieces elements)
            (Shape.endsOwn (Elements.shapes elements))) =
        Elements.pieces (descriptionElements (some c')) ++
          around (Elements.comments es) (Elements.pieces es)
            (Shape.endsOwn (Elements.shapes es)) := by
      rw [Piece.styled_append, ← List.append_assoc, ← hpiecesc, hpieces]
      rfl
    rw [htext]
    have hall := hc.append hes
    refine ⟨_, _, hnew, ?_, hanchoredc.append _, hall.kept, hall.tokens_eq,
      hall.finish_bare hspares p⟩
    rw [Elements.marks_append, List.map_append]
    exact hyieldsc.append hyields hanchored.parted

end Productions

/-- A query that is written as its selection set alone is read again as such, with the comments of its
keyword at the brace. -/
theorem Rereads.query {goal : Goal} (hshorthand : .shorthand ∈ goal.productions) (style : Style)
    {c : Child}
    (h : ∀ pending, AllBlock pending → Rereads (.kind .selectionSet) (Mark.writtenTokens c.marks) c.node
      (leadingPieces pending ++ Piece.styled style c.pieces))
    (comments : List Comment) {pending : List Comment} (hpending : AllBlock pending) :
    Rereads goal (Mark.writtenTokens (queryMark comments :: c.marks))
      (.mk .operationDefinition (.operation .query)
        (Node.ofComments .comments comments ++ [(.selectionSet, c.node)]))
      (leadingPieces pending ++ Piece.styled style (leadingPieces comments ++ c.pieces)) := by
  obtain ⟨marks, node, hderives, hyields, hanchored, hkept, htokens, hbare⟩ :=
    h _ (hpending.append (style.allBlock_blocks comments))
  rw [leadingPieces_append, Style.leadingPieces_blocks, List.append_assoc,
    ← Piece.styled_append] at hderives hyields hanchored
  let c' : Child :=
    ⟨marks, leadingPieces pending ++ Piece.styled style (leadingPieces comments ++ c.pieces), node⟩
  let es : List Element := [.child .selectionSet (.kind .selectionSet) c']
  -- The keyword is gone, so the node is one of the other production, and its comments are pending
  -- for the selection set.
  have hnew : Derives goal (Elements.marks (descriptionElements none ++ es))
      (Elements.pieces (descriptionElements none) ++
        around (Elements.comments es) (Elements.pieces es) (Shape.endsOwn (Elements.shapes es)))
      (Production.finish .shorthand (descriptionElements none ++ es)) := by
    refine .production hshorthand rfl (fun h => by cases h) (.cons (.part (.child _ _)) .nil)
      (fun h => by cases h) (fun h => by cases h) (fun c hc => by cases hc)
      fun slot subgoal c hc => ?_
    obtain ⟨rfl, rfl, rfl⟩ : slot = .selectionSet ∧ subgoal = .kind .selectionSet ∧ c = c' := by
      simpa [es] using hc
    exact hderives
  have hmarks : Elements.marks (descriptionElements none ++ es) = marks := by
    simp [descriptionElements, es, c']
  have hpieces : Elements.pieces (descriptionElements none) ++
      around (Elements.comments es) (Elements.pieces es) (Shape.endsOwn (Elements.shapes es)) =
      c'.pieces := by
    simp [descriptionElements, es, Element.comments, Shape.endsOwn, around, leadingPieces]
  rw [hmarks, hpieces] at hnew
  refine ⟨_, _, hnew, hyields, hanchored, hkept, htokens, ?_⟩
  have hfinish : Production.finish .shorthand (descriptionElements none ++ es) =
      .mk .operationDefinition (.operation .query) [(.selectionSet, node)] := rfl
  rw [hfinish, Node.bare_mk, Node.bare_mk, Node.bareChildren_append,
    Node.bareChildren_ofComments rfl, List.nil_append, Node.bareChildren_cons,
    Node.bareChildren_cons, hbare]

/-- A type that can't be null is read again, with the comments of its mark around the mark. -/
theorem Rereads.nonNull {style : Style} {marks : List Mark} {pieces : List Piece} {node : Node}
    {pending : List Comment}
    (h : Rereads .type (Mark.writtenTokens marks) node
      (leadingPieces pending ++ Piece.styled style pieces))
    (hkind : node.kind ≠ .nonNullType) (comments : List Comment) :
    Rereads .type (Mark.writtenTokens (marks ++ [⟨⟨.punct .exclamation, comments⟩, false⟩]))
      (.mk .nonNullType .none (Node.ofComments .comments comments ++ [(.type, node)]))
      (leadingPieces pending ++ Piece.styled style
        (pieces ++ around comments [.token (.punct .exclamation)] true)) := by
  obtain ⟨marks', node', hderives, hyields, hanchored, hkept, htokens, hbare⟩ := h
  obtain ⟨comments', haround, hmark⟩ :=
    exists_around style allBlock_nil comments (.punct .exclamation)
  have htoken : Piece.Anchored [.token (.punct .exclamation)] := trivial
  have hanchored' := htoken.around comments' true
  have hkind' : node'.kind ≠ .nonNullType := by
    rwa [← Node.kind_bare, hbare, Node.kind_bare]
  have hpieces : leadingPieces pending ++ Piece.styled style
      (pieces ++ around comments [.token (.punct .exclamation)] true) =
      leadingPieces pending ++ Piece.styled style pieces ++
        around comments' [.token (.punct .exclamation)] true := by
    rw [haround, Piece.styled_append, List.append_assoc]
    rfl
  rw [hpieces]
  refine ⟨_, _, hderives.nonNull comments' hkind', ?_, hanchored.append _, ?_, ?_, ?_⟩
  · rw [List.map_append]
    exact hyields.append hmark hanchored'.parted
  · exact List.forall_mem_append.2 ⟨hkept, by simp⟩
  · rw [Mark.writtenTokens_append, Mark.writtenTokens_append, htokens]
    rfl
  · rw [Node.bare_mk, Node.bare_mk, Node.bareChildren_append, Node.bareChildren_append,
      Node.bareChildren_ofComments rfl, Node.bareChildren_ofComments rfl, Node.bareChildren_cons,
      Node.bareChildren_cons, hbare]

/-- The pieces of a derivation in a style, behind some comments, are those of another derivation, which
has the tokens that are written and makes the same node but for comments. -/
theorem Derives.rereads {goal : Goal} {marks : List Mark} {pieces : List Piece} {node : Node}
    (h : Derives goal marks pieces node) (style : Style) (pending : List Comment) :
    Rereads goal (Mark.writtenTokens marks) node
      (leadingPieces pending ++ Piece.styled style pieces) := by
  -- Comments that come before a node are on lines of their own.
  suffices hblock : ∀ pending, AllBlock pending → Rereads goal (Mark.writtenTokens marks) node
      (leadingPieces pending ++ Piece.styled style pieces) by
    rw [← leadingPieces_block]
    exact hblock _ (allBlock_block pending)
  have hall {goal : Goal} {tokens : List Token} {node : Node} {pieces : List Piece}
      (h : ∀ pending, AllBlock pending →
        Rereads goal tokens node (leadingPieces pending ++ pieces)) (pending : List Comment) :
      Rereads goal tokens node (leadingPieces pending ++ pieces) := by
    rw [← leadingPieces_block]
    exact h _ (allBlock_block pending)
  clear pending
  induction h with
  | @production goal p description elements hgoal hreadable hdescribed hspells hdemand hquery
      hdescription hchildren ihdescription ihchildren =>
    intro pending hpending
    exact Production.rereads hgoal hreadable hdescribed hspells hdemand hquery
      (fun c hc => hall (ihdescription c hc))
      (fun slot subgoal c hmem => hall (ihchildren slot subgoal c hmem)) hpending
  | @query goal c comments hgoal hshorthand hchild ih =>
    intro pending hpending
    exact Rereads.query hshorthand style ih comments hpending
  | @nonNull marks pieces node comments h hkind ih =>
    intro pending hpending
    exact (ih pending hpending).nonNull hkind comments

end GraphQLTree
