import GraphQLTree.Proofs.Comments.Interleaved
import GraphQLTree.Proofs.Grammar.Gather
import GraphQLTree.Proofs.Grammar.Trimming

/-!
# Comment lists

Each node holds up to three lists of comments: those around it and those of its brackets. The comments
of the words that a node is derived from are interleaved from the comment lists of the node and of the
nodes below it (`Derives.interleaved_marks`), and so are the comments that the node is printed with
(`Derives.interleaved_pieces`). So no comment is lost or doubled, and those of one list keep their
order.
-/

namespace GraphQLTree

/-! ### Comment lists of nodes -/

/-- The slots that hold comments. -/
def commentSlots : List Slot :=
  [.comments, .commentsOpeningBracket, .commentsClosingBracket]

/-- The slots that hold the comments of brackets. -/
def bracketSlots : List Slot :=
  [.commentsOpeningBracket, .commentsClosingBracket]

theorem mem_commentSlots {slot : Slot} : slot ∈ commentSlots ↔ slot.holdsComments = true := by
  cases slot <;> decide

/-- The texts of the nodes in a slot. -/
def textsIn (slot : Slot) (entries : List (Slot × Node)) : List String :=
  (entriesIn slot entries).map fun entry => entry.2.text

/-- The texts of the nodes in each of some slots. -/
def listsIn (slots : List Slot) (entries : List (Slot × Node)) : List (List String) :=
  slots.map fun slot => textsIn slot entries

/-- The comment lists of a node and of the nodes below it. -/
def Node.commentLists (node : Node) : List (List String) :=
  node.gather fun node => listsIn commentSlots node.children

theorem Node.commentLists_mk (kind : Kind) (atom : Atom) (children : List (Slot × Node)) :
    (mk kind atom children).commentLists =
      listsIn commentSlots children ++ children.flatMap fun entry => entry.2.commentLists :=
  gather_mk _ kind atom children

/-- The texts of comments. -/
def Comment.texts (comments : List Comment) : List String :=
  comments.map Comment.text

theorem textsIn_append (slot : Slot) (a b : List (Slot × Node)) :
    textsIn slot (a ++ b) = textsIn slot a ++ textsIn slot b := by
  simp [textsIn, entriesIn_append]

theorem textsIn_ofComments (slot : Slot) (comments : List Comment) :
    textsIn slot (Node.ofComments slot comments) = Comment.texts comments := by
  rw [textsIn, entriesIn_ofComments, Node.ofComments, List.map_map]
  rfl

theorem textsIn_ofComments_of_ne {slot slot' : Slot} (h : slot' ≠ slot) (comments : List Comment) :
    textsIn slot (Node.ofComments slot' comments) = [] := by
  rw [textsIn, entriesIn_ofComments_of_ne h, List.map_nil]

/-- Children in other slots don't matter. -/
theorem listsIn_append_left {slots : List Slot} {a : List (Slot × Node)}
    (h : ∀ entry ∈ a, entry.1 ∉ slots) (b : List (Slot × Node)) :
    listsIn slots (a ++ b) = listsIn slots b := by
  refine List.map_congr_left fun slot hslot => ?_
  have hnil : entriesIn slot a = [] := by
    refine List.filter_eq_nil_iff.2 fun entry hentry he => h entry hentry ?_
    rwa [of_decide_eq_true he]
  rw [textsIn_append, textsIn, hnil, List.map_nil, List.nil_append]

/-- Nodes without children hold no comments. -/
theorem Node.commentLists_leaf (kind : Kind) (atom : Atom) :
    ∀ list ∈ (Node.mk kind atom []).commentLists, list = [] := by
  intro list hmem
  rw [commentLists_mk, List.flatMap_nil, List.append_nil] at hmem
  obtain ⟨slot, -, rfl⟩ := List.mem_map.1 hmem
  rfl

theorem commentLists_ofComments (slot : Slot) (comments : List Comment) :
    ∀ list ∈ (Node.ofComments slot comments).flatMap fun entry => entry.2.commentLists,
      list = [] := by
  intro list hmem
  obtain ⟨entry, hentry, hmem⟩ := List.mem_flatMap.1 hmem
  obtain ⟨comment, -, rfl⟩ := List.mem_map.1 hentry
  exact Node.commentLists_leaf _ _ list hmem

theorem commentLists_gift (gift : Gift) :
    ∀ list ∈ gift.entries.flatMap fun entry => entry.2.commentLists, list = [] := by
  intro list hmem
  cases gift with
  | name slot text =>
    rw [Gift.entries, List.flatMap_singleton] at hmem
    exact Node.commentLists_leaf _ _ list hmem
  | _ => cases hmem

namespace Interleaved

variable {slots : List Slot} {lists lists' : List (List String)} {entries : List (Slot × Node)}
  {whole : List String}

/-- Empty lists don't matter. -/
theorem skip (hempty : ∀ list ∈ lists', list = [])
    (h : Interleaved (listsIn slots entries ++ lists) whole) :
    Interleaved (listsIn slots entries ++ (lists' ++ lists)) whole := by
  refine ((Interleaved.nil hempty).append h).of_perm ?_
  rw [← List.append_assoc, ← List.append_assoc]
  exact List.perm_append_comm.append_right lists

/-- Comments in front of the others of a slot. -/
theorem comments (hslots : slots.Nodup) {slot : Slot} (comments : List Comment)
    (h : Interleaved (listsIn slots entries ++ lists) whole) :
    Interleaved (listsIn slots (Node.ofComments slot comments ++ entries) ++ lists)
      ((if slot ∈ slots then Comment.texts comments else []) ++ whole) := by
  have hothers {slots : List Slot} (hslot : slot ∉ slots) :
      listsIn slots (Node.ofComments slot comments ++ entries) = listsIn slots entries := by
    refine listsIn_append_left (fun entry hentry => ?_) entries
    obtain ⟨comment, -, rfl⟩ := List.mem_map.1 hentry
    exact hslot
  by_cases hslot : slot ∈ slots
  · obtain ⟨s, t, rfl⟩ := List.append_of_mem hslot
    obtain ⟨-, ht, hdisjoint⟩ := List.nodup_append.1 hslots
    have hs : slot ∉ s := fun hmem => hdisjoint slot hmem slot List.mem_cons_self rfl
    have hlists (entries : List (Slot × Node)) : listsIn (s ++ slot :: t) entries =
        listsIn s entries ++ textsIn slot entries :: listsIn t entries := List.map_append
    rw [if_pos hslot, hlists, hothers hs, hothers (List.nodup_cons.1 ht).1, textsIn_append,
      textsIn_ofComments, List.append_assoc, List.cons_append]
    rw [hlists, List.append_assoc, List.cons_append] at h
    exact h.prepend _
  · rwa [hothers hslot, if_neg hslot]

end Interleaved

/-- What elements hold is interleaved from the comments in some slots and what their children hold. -/
theorem Elements.interleaved {slots : List Slot} (hslots : slots ⊆ commentSlots)
    (hnodup : slots.Nodup) {elements : List Element} (htidy : ∀ shape ∈ shapes elements, shape.IsTidy)
    {f : Element → List String} (hspace : ∀ piece, .space piece ∈ elements → f (.space piece) = [])
    (hown : ∀ slot word spare gift, .own slot word spare gift ∈ elements →
      f (.own slot word spare gift) = if slot ∈ slots then Comment.texts word.comments else [])
    (hchildren : ∀ slot goal c, .child slot goal c ∈ elements →
      Interleaved c.node.commentLists (f (.child slot goal c))) :
    Interleaved (listsIn slots (entries elements) ++
      (entries elements).flatMap fun entry => entry.2.commentLists) (elements.flatMap f) := by
  induction elements with
  | nil =>
    refine .nil fun list hmem => ?_
    rw [entries_nil, List.flatMap_nil, List.append_nil] at hmem
    obtain ⟨slot, -, rfl⟩ := List.mem_map.1 hmem
    rfl
  | cons element elements ih =>
    have hrest := ih (fun shape hmem => htidy shape (List.mem_cons_of_mem _ hmem))
      (fun piece hmem => hspace piece (List.mem_cons_of_mem _ hmem))
      (fun slot word spare gift hmem => hown slot word spare gift (List.mem_cons_of_mem _ hmem))
      fun slot goal c hmem => hchildren slot goal c (List.mem_cons_of_mem _ hmem)
    have hhead := htidy element.shape List.mem_cons_self
    have hother {entries : List (Slot × Node)}
        (h : ∀ entry ∈ entries, entry.1.holdsComments = false) : ∀ entry ∈ entries, entry.1 ∉ slots := by
      intro entry hentry hmem
      have hcomments := mem_commentSlots.1 (hslots hmem)
      rw [h entry hentry] at hcomments
      cases hcomments
    rw [entries_cons, List.flatMap_cons, List.flatMap_append]
    cases element with
    | space piece =>
      rw [hspace piece List.mem_cons_self]
      exact hrest
    | own slot word spare gift =>
      -- The comments come in front of the others of the slot, and a name holds none.
      have hgift := (listsIn_append_left (hother hhead.2) (entries elements)).symm ▸ hrest
      have hskipped := (hgift.skip (commentLists_gift gift)).skip
        (commentLists_ofComments slot word.comments)
      rw [hown slot word spare gift List.mem_cons_self, Element.entries, List.append_assoc,
        List.flatMap_append, List.append_assoc]
      exact hskipped.comments hnodup word.comments
    | child slot goal c =>
      have hc := hchildren slot goal c List.mem_cons_self
      have hslot : ∀ entry ∈ (Element.child slot goal c).entries, entry.1.holdsComments = false := by
        rintro entry hentry
        obtain rfl := List.mem_singleton.1 hentry
        exact hhead
      rw [listsIn_append_left (hother hslot), Element.entries, List.flatMap_singleton]
      refine (hc.append hrest).of_perm ?_
      rw [← List.append_assoc, ← List.append_assoc]
      exact List.perm_append_comm.append_right _

/-! ### Comments of words -/

/-- The texts of the comments of some words. -/
def Mark.commentTexts (marks : List Mark) : List String :=
  marks.flatMap fun mark => Comment.texts mark.word.comments

theorem Mark.commentTexts_append (a b : List Mark) :
    commentTexts (a ++ b) = commentTexts a ++ commentTexts b :=
  List.flatMap_append

theorem Node.entriesIn_arrange_of_forall {kind : Kind} {entries : List (Slot × Node)}
    (h : ∀ entry ∈ entries, entry.1 ∈ kind.slots) (slot : Slot) :
    entriesIn slot (arrange kind entries) = entriesIn slot entries := by
  by_cases hslot : slot ∈ kind.slots
  · exact entriesIn_arrange hslot entries
  · have hnil {entries' : List (Slot × Node)} (h' : ∀ entry ∈ entries', entry.1 ∈ kind.slots) :
        entriesIn slot entries' = [] :=
      List.filter_eq_nil_iff.2 fun entry hentry he =>
        hslot (of_decide_eq_true he ▸ h' entry hentry)
    rw [hnil h, hnil fun entry hentry => mem_slots_of_arrange hentry]

/-- The comment lists of a node that is made of elements. -/
theorem Production.commentLists_finish {p : Production} (hp : p.isReadable = true)
    {description : Option Child} {elements : List Element}
    (hdescribed : description.isSome = true → p.rule.described = true)
    (hspells : SpellItems p.rule.items (Elements.shapes elements)) :
    (p.finish (descriptionElements description ++ elements)).commentLists.Perm
      (listsIn commentSlots (Elements.entries (descriptionElements description ++ elements)) ++
        (Elements.entries (descriptionElements description ++ elements)).flatMap
          fun entry => entry.2.commentLists) := by
  have hslots := mem_slots_of_entries hp hdescribed hspells
  have htexts (slot : Slot) : textsIn slot
      (p.finish (descriptionElements description ++ elements)).children =
      textsIn slot (Elements.entries (descriptionElements description ++ elements)) :=
    congrArg (List.map fun entry : Slot × Node => entry.2.text)
      (Node.entriesIn_arrange_of_forall hslots slot)
  refine (gather_finish hp hdescribed hspells _).trans (List.Perm.of_eq ?_)
  exact congrArg (· ++ _) (List.map_congr_left fun slot _ => htexts slot)

/-- The comments of a node that has comments around it and one child. -/
theorem Node.interleaved_commented (kind : Kind) (atom : Atom) (slot : Slot)
    (hslot : slot.holdsComments = false) {comments : List Comment} {node : Node}
    {front whole back : List String} (hcomments : Comment.texts comments = front ++ back)
    (h : Interleaved node.commentLists whole) :
    Interleaved (mk kind atom (ofComments .comments comments ++ [(slot, node)])).commentLists
      (front ++ whole ++ back) := by
  have hchild (slot' : Slot) (hslot' : slot'.holdsComments = true) : textsIn slot' [(slot, node)] = [] := by
    have hne : slot ≠ slot' := by
      rintro rfl
      rw [hslot] at hslot'
      cases hslot'
    simp [textsIn, entriesIn, hne]
  have hlists : listsIn commentSlots (ofComments .comments comments ++ [(slot, node)]) =
      [front ++ back, [], []] := by
    simp [listsIn, commentSlots, textsIn_append, textsIn_ofComments,
      textsIn_ofComments_of_ne, hcomments, hchild .comments rfl, hchild .commentsOpeningBracket rfl,
      hchild .commentsClosingBracket rfl]
  have hempty : ∀ list ∈ [[], []] ++ (ofComments .comments comments).flatMap fun entry =>
      entry.2.commentLists, list = [] :=
    List.forall_mem_append.2 ⟨by simp, commentLists_ofComments .comments comments⟩
  have hnode := (Interleaved.nil hempty).append h
  rw [commentLists_mk, hlists, List.flatMap_append, List.flatMap_singleton]
  rw [List.append_assoc] at hnode
  exact hnode.around front back

theorem Elements.isTidy_described {items : List Item} (hitems : ∀ item ∈ items, item.isReadable = true)
    (description : Option Child) {elements : List Element}
    (hspells : SpellItems items (shapes elements)) :
    ∀ shape ∈ shapes (descriptionElements description ++ elements), shape.IsTidy := by
  rw [shapes_append]
  refine List.forall_mem_append.2 ⟨?_, hspells.isTidy hitems⟩
  cases description with
  | none => simp [descriptionElements]
  | some c => simp [descriptionElements, Shape.IsTidy, Slot.holdsComments]

/-- The comments of the words that a node is derived from are interleaved from the comment lists of the
node and of the nodes below it. -/
theorem Derives.interleaved_marks {goal : Goal} {marks : List Mark} {pieces : List Piece} {node : Node}
    (h : Derives goal marks pieces node) :
    Interleaved node.commentLists (Mark.commentTexts marks) := by
  induction h with
  | @production goal p description elements hgoal hreadable hdescribed hspells hdemand hquery
      hdescription hchildren ihdescription ihchildren =>
    refine Interleaved.of_perm (Production.commentLists_finish hreadable hdescribed hspells).symm
      ?_
    have htidy := Elements.isTidy_described (Production.items_isReadable hreadable).2 description
      hspells
    rw [Elements.marks, Mark.commentTexts, List.flatMap_assoc]
    refine Elements.interleaved (List.Subset.refl _) (by decide) htidy (fun piece _ => rfl) ?_ ?_
    · intro slot word spare gift hmem
      have hshape := htidy _ (List.mem_map_of_mem hmem)
      rw [if_pos (mem_commentSlots.2 hshape.1)]
      exact List.append_nil _
    · intro slot subgoal c hmem
      rcases List.mem_append.1 hmem with hmem | hmem
      · exact ihdescription c (mem_descriptionElements hmem).2.2
      · exact ihchildren slot subgoal c hmem
  | @query goal c comments hgoal hshorthand hchild ih =>
    have hquery := Node.interleaved_commented .operationDefinition (.operation .query)
      .selectionSet rfl (List.append_nil (Comment.texts comments)).symm ih
    rwa [List.append_nil] at hquery
  | @nonNull marks pieces node comments h hkind ih =>
    have htype := Node.interleaved_commented .nonNullType .none .type rfl
      (List.nil_append (Comment.texts comments)).symm ih
    rw [Mark.commentTexts_append]
    simpa [Mark.commentTexts] using htype

/-! ### Comments of pieces -/

namespace Piece

/-- The text of a piece that is a comment. -/
def commentText? : Piece → Option String
  | leading text => some text
  | trailing text => some text
  | _ => none

/-- The texts of the comments among some pieces. -/
def commentTexts (pieces : List Piece) : List String :=
  pieces.filterMap commentText?

@[simp] theorem commentTexts_nil : commentTexts [] = [] := rfl

@[simp] theorem commentTexts_cons_leading (text : String) (pieces : List Piece) :
    commentTexts (.leading text :: pieces) = text :: commentTexts pieces := rfl

@[simp] theorem commentTexts_cons_trailing (text : String) (pieces : List Piece) :
    commentTexts (.trailing text :: pieces) = text :: commentTexts pieces := rfl

@[simp] theorem commentTexts_cons_token (t : Token) (pieces : List Piece) :
    commentTexts (.token t :: pieces) = commentTexts pieces := rfl

theorem commentTexts_cons_space {piece : Piece} (h : piece.ink = none) (pieces : List Piece) :
    commentTexts (piece :: pieces) = commentTexts pieces := by
  cases piece <;> first | rfl | cases h

theorem commentTexts_append (a b : List Piece) :
    commentTexts (a ++ b) = commentTexts a ++ commentTexts b :=
  List.filterMap_append

theorem commentTexts_leading (comments : List Comment) :
    commentTexts (leadingPieces comments) = Comment.texts comments := by
  rw [commentTexts, leadingPieces, List.filterMap_map, Comment.texts, ← List.filterMap_eq_map]
  rfl

/-- Comments around pieces are in front of theirs, except that the last one may be behind. -/
theorem commentTexts_around (comments : List Comment) (body : List Piece) (own : Bool) :
    ∃ front back, Comment.texts comments = front ++ back ∧
      commentTexts (around comments body own) = front ++ commentTexts body ++ back := by
  rcases around_cases comments body own with ⟨-, he⟩ | ⟨before, text, -, rfl, he⟩
  · refine ⟨Comment.texts comments, [], (List.append_nil _).symm, ?_⟩
    rw [he, commentTexts_append, commentTexts_leading, List.append_nil]
  · refine ⟨Comment.texts before, [text], List.map_append, ?_⟩
    rw [he, commentTexts_append, commentTexts_append, commentTexts_leading]
    rfl

/-- Pieces in a style that keeps comments have the same comments, as that style writes them. -/
theorem commentTexts_styled {style : Style} (hkept : style.comments = true) (pieces : List Piece) :
    commentTexts (styled style pieces) = (commentTexts pieces).map style.commentText := by
  rw [commentTexts, commentTexts, styled, List.filterMap_filterMap, List.map_filterMap]
  refine congrArg (fun f => List.filterMap f pieces) (funext fun piece => ?_)
  cases piece <;> simp [styled?, hkept, commentText?]

/-- The comments of the words of pieces, and those behind the last word, are the comments among the
pieces. -/
theorem comments_words (pending : List Comment) (pieces : List Piece) :
    Comment.texts ((words pending pieces).1.flatMap Word.comments ++ (words pending pieces).2) =
      Comment.texts pending ++ commentTexts pieces := by
  induction pending, pieces using words.induct with
  | case1 pending => exact (List.append_nil _).symm
  | case2 pending text pieces ih =>
    rw [words, ih]
    simp [Comment.texts]
  | case3 pending text pieces ih =>
    rw [words, ih]
    simp [Comment.texts]
  | case4 pending t text pieces ih =>
    simp only [words, Word.put, List.flatMap_cons, List.append_assoc]
    simp only [Comment.texts, List.map_append] at ih ⊢
    rw [ih]
    simp
  | case5 pending t pieces hne ih =>
    rw [words_token pending t fun text rest he => hne text rest he]
    simp only [Word.put, List.flatMap_cons, List.append_assoc]
    simp only [Comment.texts, List.map_append] at ih ⊢
    rw [ih]
    simp
  | case6 pending piece pieces hleading htrailing htrailed htoken ih =>
    have hink : piece.ink = none := by
      cases piece with
      | leading text => exact absurd rfl (hleading text)
      | trailing text => exact absurd rfl (htrailing text)
      | token t => exact absurd rfl (htoken t)
      | _ => rfl
    rw [words_space pending hink, ih, commentTexts_cons_space hink]

end Piece

/-- Brackets are not spare. -/
theorem SpellItems.slot_of_spare {items : List Item} {shapes : List Shape}
    (h : SpellItems items shapes) {slot : Slot} {token : Token} {gift : Gift}
    (hmem : .own slot token true gift ∈ shapes) : slot = .comments := by
  obtain ⟨parts, -, hparts⟩ := h.exists_parts
  clear h
  induction hparts with
  | nil => cases hmem
  | @cons part parts a b ha hb ih =>
    rcases List.mem_append.1 hmem with hmem | hmem
    · cases hseparated : part.isSeparated with
      | true =>
        obtain ⟨-, rfl, -⟩ := ha.makes _ hmem
        cases part <;> first | rfl | cases hseparated
      | false =>
        rw [← ha.written_eq hseparated] at hmem
        cases (List.mem_filter.1 hmem).2
    · exact ih hmem

theorem SpellItems.ink_of_space {items : List Item} {shapes : List Shape}
    (h : SpellItems items shapes) {piece : Piece} (hmem : .space piece ∈ shapes) : piece.ink = none := by
  obtain ⟨part, -, hmakes⟩ := h.makes _ hmem
  simp only [Part.Makes, List.mem_cons, List.not_mem_nil, or_false] at hmakes
  rcases hmakes with rfl | rfl | rfl <;> rfl

/-- The comments of a bracket are among its pieces. -/
theorem Element.commentTexts_own {slot : Slot} (hslot : slot.holdsComments = true) {word : Word}
    {spare : Bool} {gift : Gift} (hspare : spare = true → slot = .comments) :
    Piece.commentTexts (own slot word spare gift).pieces =
      if slot ∈ bracketSlots then Comment.texts word.comments else [] := by
  have haround : Piece.commentTexts (around word.comments [.token word.token] true) =
      Comment.texts word.comments := by
    obtain ⟨front, back, hcomments, haround⟩ :=
      Piece.commentTexts_around word.comments [.token word.token] true
    rw [haround, hcomments, Piece.commentTexts_cons_token, Piece.commentTexts_nil, List.append_nil]
  cases spare with
  | true =>
    obtain rfl := hspare rfl
    rfl
  | false => cases slot <;> first | exact haround | rfl | cases hslot

/-- The comments that a node is printed with are interleaved from the comment lists of the node and of
the nodes below it. -/
theorem Derives.interleaved_pieces {goal : Goal} {marks : List Mark} {pieces : List Piece} {node : Node}
    (h : Derives goal marks pieces node) :
    Interleaved node.commentLists (Piece.commentTexts pieces) := by
  induction h with
  | @production goal p description elements hgoal hreadable hdescribed hspells hdemand hquery
      hdescription hchildren ihdescription ihchildren =>
    refine Interleaved.of_perm (Production.commentLists_finish hreadable hdescribed hspells).symm ?_
    have htidy := hspells.isTidy (Production.items_isReadable hreadable).2
    obtain ⟨front, back, hcomments, haround⟩ := Piece.commentTexts_around (Elements.comments elements)
      (Elements.pieces elements) (Shape.endsOwn (Elements.shapes elements))
    -- The comments of the brackets stay with their tokens, those of the other own tokens go around.
    have hbody : Interleaved (listsIn bracketSlots (Elements.entries elements) ++
        (Elements.entries elements).flatMap fun entry => entry.2.commentLists)
        (Piece.commentTexts (Elements.pieces elements)) := by
      rw [Elements.pieces, Piece.commentTexts, List.filterMap_flatMap]
      exact Elements.interleaved (List.subset_cons_self ..) (by decide) htidy
        (fun piece hmem => Piece.commentTexts_cons_space
          (hspells.ink_of_space (List.mem_map_of_mem hmem)) [])
        (fun slot word spare gift hmem => Element.commentTexts_own (htidy _ (List.mem_map_of_mem hmem)).1
          fun hspare => hspells.slot_of_spare (hspare ▸ List.mem_map_of_mem hmem))
        ihchildren
    have htexts : textsIn .comments (Elements.entries elements) = front ++ back := by
      rw [textsIn, Elements.entriesIn_comments htidy, ← entriesIn_ofComments, ← hcomments]
      exact textsIn_ofComments _ _
    -- The comments of the node go in front of the body and behind it.
    have hnode := hbody.around front back
    rw [← htexts, ← List.cons_append, ← haround] at hnode
    cases description with
    | none => exact hnode
    | some c =>
      -- Those of the description come first.
      have hc := (ihdescription c rfl).append hnode
      have hdescription : ∀ entry ∈ [(Slot.description, c.node)], entry.1 ∉ commentSlots := by
        simp [commentSlots]
      have hlists := listsIn_append_left hdescription (Elements.entries elements)
      have hentries : Elements.entries (descriptionElements (some c) ++ elements) =
          [(.description, c.node)] ++ Elements.entries elements := rfl
      have hpieces : Piece.commentTexts (Elements.pieces (descriptionElements (some c))) =
          Piece.commentTexts c.pieces := by
        have hpieces : Elements.pieces (descriptionElements (some c)) = c.pieces ++ [.lines 0 1] := rfl
        rw [hpieces, Piece.commentTexts_append]
        exact List.append_nil _
      rw [Piece.commentTexts_append, hpieces, hentries, hlists, List.flatMap_append,
        List.flatMap_singleton]
      refine hc.of_perm ?_
      rw [← List.append_assoc, ← List.append_assoc]
      exact List.perm_append_comm.append_right _
  | @query goal c comments hgoal hshorthand hchild ih =>
    have hquery := Node.interleaved_commented .operationDefinition (.operation .query)
      .selectionSet rfl (List.append_nil (Comment.texts comments)).symm ih
    rwa [List.append_nil, ← Piece.commentTexts_leading, ← Piece.commentTexts_append] at hquery
  | @nonNull marks pieces node comments h hkind ih =>
    obtain ⟨front, back, hcomments, haround⟩ :=
      Piece.commentTexts_around comments [.token (.punct .exclamation)] true
    have htype := Node.interleaved_commented .nonNullType .none .type rfl
      (List.nil_append (Comment.texts comments)).symm ih
    rwa [Piece.commentTexts_append, haround, Piece.commentTexts_cons_token, Piece.commentTexts_nil,
      List.append_nil, ← hcomments]

end GraphQLTree
