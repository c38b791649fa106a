import GraphQLTree.Proofs.Grammar.Sides
import GraphQLTree.Proofs.Grammar.Writing

/-!
# Printing nodes

The text of a node is the text of the pieces of its derivation (`Derives.prints`), provided that the
words of the derivation are known and that the node stands where its goal **fits**: sets that can be
written in two ways are written in the one that fits their parent.
-/

namespace GraphQLTree

open Text (endsLine glue)

/-- Whether words are known, with their comments. -/
def Mark.Known (marks : List Mark) : Prop :=
  ∀ mark ∈ marks, mark.word.token.Known ∧ mark.word.token.isComment = false ∧
    SoundComments mark.word.comments

theorem Mark.known_append {a b : List Mark} : Known (a ++ b) ↔ Known a ∧ Known b :=
  List.forall_mem_append

/-! ### Printed children -/

section Children

variable {style : Style} {kind : Kind}

theorem Node.layoutChildren_eq (entries : List (Slot × Node)) :
    Node.layoutChildren style kind entries = entries.map (Node.printed style kind) := by
  induction entries with
  | nil => rfl
  | cons entry entries ih =>
    rw [Node.layoutChildren, ih]
    rfl

theorem printedIn_map (slot : Slot) (entries : List (Slot × Node)) :
    printedIn slot (entries.map (Node.printed style kind)) =
      (entriesIn slot entries).map (Node.printed style kind) := by
  rw [printedIn, List.filter_map]
  rfl

end Children

/-- The comments of a node that is made of elements. -/
theorem Production.entriesIn_comments {p : Production} (hp : p.isReadable = true)
    (description : Option Child) {elements : List Element}
    (hspells : SpellItems p.rule.items (Elements.shapes elements)) :
    entriesIn .comments (Node.arrange p.kind
      (Elements.entries (descriptionElements description ++ elements))) =
        Node.ofComments .comments (Elements.comments elements) := by
  have hentries : entriesIn .comments
        (Elements.entries (descriptionElements description ++ elements)) =
      Node.ofComments .comments (Elements.comments elements) := by
    rw [Elements.entriesIn_description (by decide)]
    exact Elements.entriesIn_comments (hspells.isTidy (items_isReadable hp).2)
  by_cases hslot : Slot.comments ∈ p.kind.slots
  · rw [Node.entriesIn_arrange hslot, hentries]
  · -- A kind without a slot for comments has brackets only.
    have hshut := (isOrderly hp).isOpen_or_isShut.resolve_left fun h => hslot h.1
    rw [Elements.comments_eq_nil hspells.makes hshut]
    refine List.filter_eq_nil_iff.2 fun entry hentry he => hslot ?_
    rw [← of_decide_eq_true he]
    exact Node.mem_slots_of_arrange hentry

/-! ### Pieces of elements -/

section Elements

variable {style : Style} {parent : Kind} {elements : List Element}
  (hprints : ∀ element ∈ elements, element.Prints style parent)
include hprints

/-- The pieces of elements are known. -/
theorem Elements.known_pieces {parts : List Part}
    (hmakes : ∀ shape ∈ shapes elements, ∃ part ∈ parts, part.Makes shape) :
    Piece.Known (pieces elements) := by
  intro piece hpiece
  obtain ⟨element, hmem, hpiece⟩ := List.mem_flatMap.1 hpiece
  have hprints := hprints element hmem
  cases element with
  | space piece' =>
    obtain rfl := List.mem_singleton.1 hpiece
    obtain ⟨part, -, hspace⟩ := hmakes _ (List.mem_map_of_mem hmem)
    have hspace : piece ∈ [.soft, .hard, .comma] := hspace
    simp only [List.mem_cons, List.not_mem_nil, or_false] at hspace
    rcases hspace with rfl | rfl | rfl <;> trivial
  | own slot word spare gift =>
    obtain ⟨hknown, hcomment, hcomments⟩ := hprints
    have htoken : Piece.Known [.token word.token] := by
      simpa [Piece.Known] using ⟨hknown, hcomment⟩
    have haround := htoken.around hcomments true
    cases spare with
    | true => cases hpiece
    | false => cases slot <;> first | exact htoken piece hpiece | exact haround piece hpiece
  | child slot goal c => exact hprints.2.2 piece hpiece

/-- The comments around a node are sound. -/
theorem Elements.sound_comments : SoundComments (comments elements) := by
  intro comment hcomment
  obtain ⟨element, hmem, hcomment⟩ := List.mem_flatMap.1 hcomment
  cases element with
  | own slot word spare gift =>
    have hword : comment ∈ word.comments := by
      cases slot <;> first | exact hcomment | cases hcomment
    exact (hprints _ hmem).2.2 comment hword
  | _ => cases hcomment

/-- The pieces of elements are anchored if their shapes open with a token or a child. -/
theorem Elements.anchored_pieces (hopens : Shape.opens (shapes elements) = true) :
    Piece.Anchored (pieces elements) := by
  cases elements with
  | nil => cases hopens
  | cons element elements =>
    have hprints := hprints element List.mem_cons_self
    refine Piece.Anchored.append ?_ _
    cases element with
    | space piece => cases hopens
    | own slot word spare gift =>
      cases spare with
      | true => cases hopens
      | false =>
        have htoken : Piece.Anchored [.token word.token] := trivial
        have haround := htoken.around word.comments true
        cases slot <;> first | exact htoken | exact haround
    | child slot goal c => exact hprints.2.1

end Elements

/-- Elements that end in an own token, which has comments that stand around the node, end in it as a
piece. -/
theorem Elements.exists_last {elements : List Element} {parts : List Part}
    (hmakes : ∀ shape ∈ shapes elements, ∃ part ∈ parts, part.Makes shape)
    (hparts : parts.all Part.isOpen = true) (hown : Shape.endsOwn (shapes elements) = true) :
    ∃ before t, pieces elements = before ++ [.token t] := by
  induction elements with
  | nil => cases hown
  | cons element elements ih =>
    cases elements with
    | nil =>
      cases element with
      | own slot word spare gift =>
        obtain ⟨part, hpart, hmakes⟩ := hmakes _ List.mem_cons_self
        obtain rfl := hmakes.eq_comments (List.all_eq_true.1 hparts part hpart)
        cases spare with
        | true => cases hown
        | false => exact ⟨[], word.token, rfl⟩
      | _ => cases hown
    | cons element' elements =>
      obtain ⟨before, t, hbefore⟩ := ih (fun shape hmem => hmakes shape (List.mem_cons_of_mem _ hmem))
        (by cases element <;> exact hown)
      exact ⟨element.pieces ++ before, t, by rw [pieces_cons, hbefore, List.append_assoc]⟩

/-! ### Nodes -/

/-- The production that a node is written by doesn't depend on its children, unless it is an
operation. -/
theorem Production.forNode_eq (parent : Option Kind) {kind : Kind} (h : kind ≠ .operationDefinition)
    (atom : Atom) (slots : List Slot) :
    forNode parent kind atom slots = forNode parent kind .none [] := by
  cases kind <;> first | rfl | exact absurd rfl h

/-- Whether the nodes of a goal are written by its productions when they stand in a parent. -/
def Goal.fits (parent : Option Kind) (goal : Goal) : Bool :=
  goal.productions.all fun p =>
    p.kind = .operationDefinition || Production.forNode parent p.kind .none [] = p

/-- The goals that a rule asks for fit the rule's kind. -/
theorem Part.fits_of_asks {p : Production} (hp : p.isReadable = true) {part : Part}
    (hpart : part ∈ p.rule.items.flatMap Item.parts) {ask : Slot × Goal} (hask : ask ∈ part.asks) :
    ask.2.fits (some p.kind) = true := by
  have hcheck := Production.check (fun p => !p.isReadable ||
    (p.rule.items.flatMap Item.parts).all fun part => part.asks.all fun ask =>
      ask.2.fits (some p.kind)) (by decide) p
  simp only [hp, Bool.not_true, Bool.false_or, List.all_eq_true] at hcheck
  exact hcheck part hpart ask hask

section Productions

variable {style : Style} {p : Production} (hp : p.isReadable = true)
  {description : Option Child} {elements : List Element}
  (hdescribed : description.isSome = true → p.rule.described = true)
  (hspells : SpellItems p.rule.items (Elements.shapes elements))
include hp

/-- The children of a node are those that its elements give. -/
theorem Production.givenBy : GivenBy style p.kind
    ((Node.arrange p.kind (Elements.entries (descriptionElements description ++ elements))).map
      (Node.printed style p.kind)) elements (slotsOfItems p.rule.items) := by
  intro slot hslot
  have hne : slot ≠ .description := by
    rintro rfl
    exact (isOrderly hp).not_mem_slots.2 hslot
  rw [printedIn_map, Node.entriesIn_arrange ((isOrderly hp).slots_subset hslot),
    Elements.entriesIn_description hne]

include hspells

/-- The atom of a node is that of its elements, if they have one. -/
theorem Production.atom_eq :
    (∀ a ∈ Shape.atoms (Elements.shapes elements),
      (Shape.atom? (Elements.shapes (descriptionElements description ++ elements))).getD
        p.rule.start = a) ∧
    ((Shape.atom? (Elements.shapes (descriptionElements description ++ elements))).getD
        p.rule.start = .repeatable true →
      .repeatable true ∈ Shape.atoms (Elements.shapes elements)) := by
  have hstart : p.rule.start ≠ .repeatable true := by
    have hcheck := check (fun p => p.rule.start ≠ .repeatable true) (by decide) p
    exact of_decide_eq_true hcheck
  have hdescription : Shape.atoms (Elements.shapes (descriptionElements description)) = [] := by
    cases description <;> rfl
  have hlength := hspells.length_atoms (isOrderly hp).singleAtom
  rw [Shape.atom?_eq, Elements.shapes_append, Shape.atoms_append, hdescription, List.nil_append]
  match Shape.atoms (Elements.shapes elements), hlength with
  | [], _ => exact ⟨by simp, fun h => absurd h hstart⟩
  | [a], _ => exact ⟨by simp, fun h => by simpa using h.symm⟩

/-- A node with comments around it has no brackets, so if it ends in an own token then that token stands
alone. -/
theorem Production.exists_last (h : Shape.endsOwn (Elements.shapes elements) = true)
    (hne : Elements.comments elements ≠ []) :
    ∃ before t, Elements.pieces elements = before ++ [.token t] := by
  rcases (isOrderly hp).isOpen_or_isShut with ⟨-, hopen⟩ | hshut
  · exact Elements.exists_last hspells.makes hopen h
  · exact absurd (Elements.comments_eq_nil hspells.makes hshut) hne

/-- The items of a rule write the pieces of their elements, with comments around them. -/
theorem Production.writeBody_eq
    (hprints : ∀ element ∈ elements, element.Prints style p.kind) {atom : Atom}
    (hatom : ∀ a ∈ Shape.atoms (Elements.shapes elements), atom = a)
    (hrepeat : atom = .repeatable true → .repeatable true ∈ Shape.atoms (Elements.shapes elements))
    {children : List Printed}
    (hgiven : GivenBy style p.kind children elements (slotsOfItems p.rule.items)) :
    attachComments style
        ((Node.ofComments .comments (Elements.comments elements)).map (Node.printed style p.kind))
        (writeItems style atom children p.rule.items).text
        (writeItems style atom children p.rule.items).own =
      Piece.render style.pretty (Piece.styled style (around (Elements.comments elements)
        (Elements.pieces elements) (Shape.endsOwn (Elements.shapes elements)))) := by
  have hopens := Production.opens hp hspells
  have horderly := isOrderly hp
  have hlayout : writeItems style atom children p.rule.items = Layout.empty.after style elements :=
    writeItems_eq (items_isReadable hp).2 horderly.isDecided horderly.nodup_slots
      horderly.not_mem_slots.1 horderly.singleAtom hspells hprints hatom
      (fun h => .inr (hrepeat h)) hgiven _
  have hown : Shape.ownBehind false (Elements.shapes elements) =
      Shape.endsOwn (Elements.shapes elements) := by
    refine Shape.ownBehind_eq false ?_ (Production.closes hp hspells)
    intro hnil
    rw [hnil] at hopens
    cases hopens
  rw [hlayout]
  simp only [Layout.after, Layout.empty, hown]
  exact attachComments_eq (Elements.sound_comments hprints) (Elements.anchored_pieces hprints hopens)
    (Elements.known_pieces hprints hspells.makes) (exists_last hp hspells) .comments p.kind

/-- The pieces of a body with comments around it can stand in a text. -/
theorem Production.body_pieces (hprints : ∀ element ∈ elements, element.Prints style p.kind) :
    Piece.Anchored (around (Elements.comments elements) (Elements.pieces elements)
        (Shape.endsOwn (Elements.shapes elements))) ∧
      Piece.Known (around (Elements.comments elements) (Elements.pieces elements)
        (Shape.endsOwn (Elements.shapes elements))) :=
  ⟨(Elements.anchored_pieces hprints (Production.opens hp hspells)).around _ _,
    (Elements.known_pieces hprints hspells.makes).around (Elements.sound_comments hprints) _⟩

include hdescribed

/-- A rule writes the pieces of its elements, with comments around them, behind the description. -/
theorem Production.write_eq
    (hprints : ∀ element ∈ descriptionElements description ++ elements, element.Prints style p.kind) :
    p.rule.write style
        ((Shape.atom? (Elements.shapes (descriptionElements description ++ elements))).getD
          p.rule.start)
        ((Node.arrange p.kind (Elements.entries (descriptionElements description ++ elements))).map
          (Node.printed style p.kind)) =
      Piece.render style.pretty (Piece.styled style (Elements.pieces (descriptionElements description) ++
        around (Elements.comments elements) (Elements.pieces elements)
          (Shape.endsOwn (Elements.shapes elements)))) := by
  -- No production that can be read places the comments of its node itself.
  have hkeeps : p.rule.items.any Item.keepsComments = false := by
    have hcheck := check (fun p => !p.isReadable || !p.rule.items.any Item.keepsComments)
      (by decide) p
    simpa [hp] using hcheck
  have hprints' : ∀ element ∈ elements, element.Prints style p.kind :=
    fun element hmem => hprints element (List.mem_append_right _ hmem)
  obtain ⟨hatom, hrepeat⟩ := @Production.atom_eq p hp description elements hspells
  obtain ⟨hanchored, hknown⟩ := Production.body_pieces hp hspells hprints'
  -- The rule's own elements give no description, so the one in front of them is all there is.
  have hnone : entriesIn .description (Elements.entries elements) = [] :=
    Elements.entriesIn_of_filled (by decide) (isOrderly hp).not_mem_slots.2 hspells.filled
  rw [Rule.write, hkeeps]
  simp only [Bool.false_eq_true, if_false, printedIn_map,
    Production.entriesIn_comments hp description hspells,
    Production.writeBody_eq hp hspells hprints' hatom hrepeat (Production.givenBy hp)]
  cases description with
  | none =>
    have hempty (h : p.rule.described = true) : entriesIn .description (Node.arrange p.kind
        (Elements.entries (descriptionElements none ++ elements))) = [] := by
      rw [Node.entriesIn_arrange (description_mem_slots h)]
      exact hnone
    cases hd : p.rule.described with
    | false => rfl
    | true =>
      rw [hempty hd]
      rfl
  | some c =>
    obtain ⟨hlayout, -, -⟩ :=
      hprints (.child .description (.kind .stringValue) c) (by simp [descriptionElements])
    have hentries : entriesIn .description (Node.arrange p.kind
        (Elements.entries (descriptionElements (some c) ++ elements))) =
          [(.description, c.node)] := by
      rw [Node.entriesIn_arrange (description_mem_slots (hdescribed rfl)), Elements.entries_append,
        entriesIn_append, hnone]
      rfl
    have htext : printedText .description ((Node.arrange p.kind
        (Elements.entries (descriptionElements (some c) ++ elements))).map
          (Node.printed style p.kind)) =
        Piece.render style.pretty (Piece.styled style c.pieces) := by
      rw [printedText_eq (by rw [printedIn_map, hentries])]
      exact hlayout
    -- Behind the description is a line in the pretty style and nothing in the compact one.
    have hlines : Piece.render style.pretty
        (Piece.styled style (Elements.pieces (descriptionElements (some c)))) =
        glue (Piece.render style.pretty (Piece.styled style c.pieces))
          (if style.pretty then ['\n'] else []) := by
      have hpieces : Elements.pieces (descriptionElements (some c)) = c.pieces ++ [.lines 0 1] := rfl
      rw [hpieces, Piece.styled_append, Piece.render, Piece.putAll_append]
      cases style.pretty <;> rfl
    rw [hdescribed rfl, hentries, if_pos (by rfl), htext, Piece.styled_append,
      Piece.render_append _ (hanchored.styled style).opens (hknown.styled style), hlines]
    simp only [Text.glueAll, List.foldl_cons, List.foldl_nil, Text.nil_glue]

end Productions

/-- A node of a readable production is written by a rule. -/
theorem Production.writeNode_eq {p : Production} (hp : p.isReadable = true) (style : Style)
    (parent : Option Kind) (atom : Atom) (children : List Printed) :
    writeNode style parent p.kind atom children =
      (forNode parent p.kind atom (children.map Printed.slot)).rule.write style atom children := by
  cases p with
  | of kind => cases kind <;> first | rfl | cases hp
  | _ => rfl

/-- Whether an operation is a query with a selection set alone can be told from its node. -/
theorem isShorthand_arrange {elements : List Element} (atom : Atom)
    (h : ∀ shape ∈ Elements.shapes elements, shape.IsTidy) :
    isShorthand atom ((Node.arrange .operationDefinition (Elements.entries elements)).map Prod.fst) =
      isShorthand atom (Shape.slots (Elements.shapes elements)) := by
  have hcontains (slot : Slot) (hslot : slot ∈ Kind.operationDefinition.slots)
      (hcomments : slot.holdsComments = false) :
      ((Node.arrange .operationDefinition (Elements.entries elements)).map Prod.fst).contains slot =
        (Shape.slots (Elements.shapes elements)).contains slot := by
    have hfilter (entries : List (Slot × Node)) :
        (entries.map Prod.fst).filter (· = slot) = (entriesIn slot entries).map Prod.fst := by
      rw [List.filter_map]
      rfl
    rw [Bool.eq_iff_iff, List.contains_iff_mem, List.contains_iff_mem]
    have hmem (slots : List Slot) : slot ∈ slots ↔ slot ∈ slots.filter (· = slot) := by simp
    rw [hmem, hfilter, Node.entriesIn_arrange hslot, Elements.slots_entriesIn h hcomments, ← hmem]
  simp only [isShorthand, hcontains .name (by decide) rfl,
    hcontains .variableDefinitions (by decide) rfl, hcontains .directives (by decide) rfl]

/-- A node is written by the production that it was derived by. -/
theorem Production.forNode_finish {p : Production} (hp : p.isReadable = true)
    {parent : Option Kind}
    (hfits : p.kind = .operationDefinition ∨ forNode parent p.kind .none [] = p)
    {description : Option Child} {elements : List Element}
    (hdescribed : description.isSome = true → p.rule.described = true)
    (hspells : SpellItems p.rule.items (Elements.shapes elements))
    (hquery : p = .of .operationDefinition → Shape.isShorthand (Elements.shapes elements) = false) :
    forNode parent p.kind
      ((Shape.atom? (Elements.shapes (descriptionElements description ++ elements))).getD p.rule.start)
      ((Node.arrange p.kind (Elements.entries (descriptionElements description ++ elements))).map
        Prod.fst) = p := by
  -- Only operations have two productions, and the printer tells them by what the node holds.
  by_cases hkind : p.kind = .operationDefinition
  · have hnone : p = .of .operationDefinition ∨ p = .shorthand := by
      cases p with
      | of kind => exact .inl (congrArg of hkind)
      | shorthand => exact .inr rfl
      | _ => cases hkind
    have hdescription : description = none := by
      cases description with
      | none => rfl
      | some c => rcases hnone with rfl | rfl <;> cases hdescribed rfl
    subst hdescription
    rcases hnone with rfl | rfl
    · have htidy := hspells.isTidy (items_isReadable hp).2
      have hshorthand := isShorthand_arrange
        ((Shape.atom? (Elements.shapes elements)).getD .none) htidy
      have hfalse := hshorthand.trans (hquery rfl)
      simp only [descriptionElements, List.nil_append, kind, forNode]
      exact if_neg (Bool.eq_false_iff.1 hfalse)
    · obtain ⟨a, b, hshapes, ha, hb⟩ := hspells.exists_append
      obtain rfl := hb.eq_nil
      cases ha.of_part with
      | child slot goal =>
        obtain ⟨c, rfl⟩ := Elements.eq_child_of_shapes hshapes
        rfl
  · rw [forNode_eq parent hkind]
    exact hfits.resolve_left hkind

/-! ### Derivations -/

/-- Whether a node is printed as some pieces wherever some goals fit. -/
def Prints (style : Style) (goal : Goal) (pieces : List Piece) (node : Node) : Prop :=
  (∀ parent, goal.fits parent = true →
    node.layout style parent = Piece.render style.pretty (Piece.styled style pieces)) ∧
  Piece.Anchored pieces ∧ Piece.Known pieces

/-- Elements are printed as their pieces if their words are known and their children are printed. -/
theorem Production.elements_print {style : Style} {p : Production} (hp : p.isReadable = true)
    {description : Option Child} {elements : List Element}
    (hspells : SpellItems p.rule.items (Elements.shapes elements))
    (hknown : Mark.Known (Elements.marks (descriptionElements description ++ elements)))
    (hchildren : ∀ slot subgoal c, .child slot subgoal c ∈ descriptionElements description ++ elements →
      Prints style subgoal c.pieces c.node) :
    ∀ element ∈ descriptionElements description ++ elements, element.Prints style p.kind := by
  intro element hmem
  have hmarks (mark : Mark) (hmark : mark ∈ element.marks) :=
    hknown mark (List.mem_flatMap.2 ⟨element, hmem, hmark⟩)
  cases element with
  | space piece => trivial
  | own slot word spare gift => exact hmarks _ (List.mem_singleton_self _)
  | child slot subgoal c =>
    obtain ⟨hlayout, hanchored, hknown⟩ := hchildren slot subgoal c hmem
    refine ⟨hlayout (some p.kind) ?_, hanchored, hknown⟩
    rcases List.mem_append.1 hmem with hdesc | hmem
    · obtain ⟨-, rfl, -⟩ := mem_descriptionElements hdesc
      rfl
    · obtain ⟨part, hpart, hask⟩ := hspells.makes _ (List.mem_map_of_mem hmem)
      exact Part.fits_of_asks hp hpart hask

/-- The pieces of a description and a body can stand in a text if those of the body can. -/
theorem Piece.described_pieces {description : Option Child} {style : Style}
    (hdescription : ∀ c ∈ description, Prints style (.kind .stringValue) c.pieces c.node)
    {body : List Piece} (hanchored : Piece.Anchored body) (hknown : Piece.Known body) :
    Piece.Anchored (Elements.pieces (descriptionElements description) ++ body) ∧
      Piece.Known (Elements.pieces (descriptionElements description) ++ body) := by
  cases description with
  | none => exact ⟨hanchored, hknown⟩
  | some c =>
    obtain ⟨-, hanchoredc, hknownc⟩ := hdescription c rfl
    have hlines : Piece.Known [.lines 0 1] := by simp [Piece.Known, Piece.IsKnown]
    exact ⟨(hanchoredc.append [.lines 0 1]).append body, (hknownc.append hlines).append hknown⟩

/-- What is printed of a node that has comments and one child. -/
private theorem printedIn_commented (style : Style) (kind : Kind) {slot : Slot}
    (hslot : slot ≠ .comments) (comments : List Comment) (node : Node) :
    printedIn slot ((Node.ofComments .comments comments ++ [(slot, node)]).map
        (Node.printed style kind)) = [(slot, node)].map (Node.printed style kind) ∧
      printedIn .comments ((Node.ofComments .comments comments ++ [(slot, node)]).map
        (Node.printed style kind)) =
          (Node.ofComments .comments comments).map (Node.printed style kind) := by
  rw [printedIn_map, printedIn_map, entriesIn_append, entriesIn_append, entriesIn_ofComments,
    entriesIn_ofComments_of_ne hslot.symm]
  have hself : entriesIn slot [(slot, node)] = [(slot, node)] := by simp [entriesIn]
  have hnone : entriesIn .comments [(slot, node)] = [] := by simp [entriesIn, hslot]
  rw [hself, hnone]
  exact ⟨rfl, congrArg _ (List.append_nil _)⟩

private theorem attachComments_nil (style : Style) (body : List Char) (own : Bool) :
    attachComments style [] body own = body := by
  cases own <;> simp [attachComments, Text.nil_glue]

/-- A query that is nothing but a selection set is printed without its keyword. -/
theorem Prints.query {style : Style} {goal : Goal} {c : Child} {comments : List Comment}
    (hcomments : SoundComments comments)
    (h : Prints style (.kind .selectionSet) c.pieces c.node) :
    Prints style goal (leadingPieces comments ++ c.pieces)
      (.mk .operationDefinition (.operation .query)
        (Node.ofComments .comments comments ++ [(.selectionSet, c.node)])) := by
  obtain ⟨hlayout, hanchored, hknown⟩ := h
  refine ⟨fun parent _ => ?_, hanchored.leading comments, (Piece.Known.leading hcomments).append hknown⟩
  have hslots : isShorthand (.operation .query) (((Node.ofComments .comments comments ++
      [(Slot.selectionSet, c.node)]).map (Node.printed style .operationDefinition)).map
        Printed.slot) = true := by
    simp [isShorthand, Node.ofComments, Node.printed]
  obtain ⟨hselection, hcomment⟩ := printedIn_commented style .operationDefinition
    (show Slot.selectionSet ≠ .comments by decide) comments c.node
  have hbody : attachComments style
        ((Node.ofComments .comments comments).map (Node.printed style .operationDefinition))
        (Piece.render style.pretty (Piece.styled style c.pieces)) false =
      Piece.render style.pretty (Piece.styled style (around comments c.pieces false)) :=
    attachComments_eq hcomments hanchored hknown (fun h => by cases h) .comments .operationDefinition
  rw [Node.layout, Node.layoutChildren_eq]
  change (Production.forNode parent .operationDefinition _ _).rule.write _ _ _ = _
  rw [Production.forNode, if_pos hslots]
  simp only [Rule.write, Production.rule, writeItems, List.foldl_cons, List.foldl_nil, Item.child,
    Item.write, Part.write, printedText_eq hselection, Item.keepsComments, Part.keepsComments,
    List.any_cons, List.any_nil, Bool.or_false, Bool.false_eq_true, if_false, Bool.false_and, hcomment,
    Layout.child, Layout.empty, Text.nil_glue, hlayout (some .operationDefinition) rfl, hbody]
  rfl

/-- A type with an exclamation mark is printed as the type and the mark. -/
theorem Prints.nonNull {style : Style} {pieces : List Piece} {node : Node} {comments : List Comment}
    (hcomments : SoundComments comments) (h : Prints style .type pieces node) :
    Prints style .type (pieces ++ around comments [.token (.punct .exclamation)] true)
      (.mk .nonNullType .none (Node.ofComments .comments comments ++ [(.type, node)])) := by
  obtain ⟨hlayout, hanchored, hknown⟩ := h
  have hmark : Piece.Known [.token (.punct .exclamation)] := by
    simp [Piece.Known, Piece.IsKnown, Token.Known, Token.Sound, Token.isComment]
  have hmark' : Piece.Anchored [.token (.punct .exclamation)] := trivial
  refine ⟨fun parent _ => ?_, hanchored.append _, hknown.append (hmark.around hcomments true)⟩
  obtain ⟨htype, hcomment⟩ := printedIn_commented style .nonNullType
    (show Slot.type ≠ .comments by decide) comments node
  have hbody : attachComments style
        ((Node.ofComments .comments comments).map (Node.printed style .nonNullType))
        (Piece.render style.pretty (Piece.styled style [.token (.punct .exclamation)])) true =
      Piece.render style.pretty
        (Piece.styled style (around comments [.token (.punct .exclamation)] true)) :=
    attachComments_eq hcomments hmark' hmark (fun _ _ => ⟨[], _, rfl⟩) .comments .nonNullType
  have hwrite : Piece.render style.pretty (Piece.styled style [.token (.punct .exclamation)]) =
      Punctuator.exclamation.text.toList := Text.nil_glue (Token.punct .exclamation).write
  rw [hwrite] at hbody
  rw [Node.layout, Node.layoutChildren_eq]
  change (Rule.ofKind .nonNullType).write _ _ _ = _
  simp only [Rule.write, Rule.ofKind, Rule.plain, writeItems, List.foldl_cons,
    List.foldl_nil, Item.child, Item.write, Part.write, printedText_eq htype, Item.keepsComments,
    Part.keepsComments, List.any_cons, List.any_nil, Bool.or_false, Bool.false_or, if_true,
    Bool.false_eq_true, if_false, Bool.false_and, hcomment, Layout.child, Layout.token, Layout.empty,
    Text.nil_glue, hlayout (some .nonNullType) rfl, hbody]
  rw [Piece.styled_append, Piece.render_append _ ((hmark'.around comments true).styled style).opens
    ((hmark.around hcomments true).styled style)]
  exact attachComments_nil style _ _

/-- The text of a node is that of the pieces of its derivation. -/
theorem Derives.prints {goal : Goal} {marks : List Mark} {pieces : List Piece} {node : Node}
    (h : Derives goal marks pieces node) (hknown : Mark.Known marks) (style : Style) :
    Prints style goal pieces node := by
  induction h with
  | @production goal p description elements hgoal hreadable hdescribed hspells hdemand hquery
      hdescription hchildren ihdescription ihchildren =>
    have hmarks {slot : Slot} {subgoal : Goal} {c : Child}
        (hc : .child slot subgoal c ∈ descriptionElements description ++ elements) :
        Mark.Known c.marks :=
      fun mark hmark => hknown mark (List.mem_flatMap.2 ⟨.child slot subgoal c, hc, hmark⟩)
    have hdesc (c : Child) (hc : c ∈ description) :
        Prints style (.kind .stringValue) c.pieces c.node := by
      obtain rfl := hc
      exact ihdescription c rfl (hmarks (List.mem_append_left _ List.mem_cons_self))
    have hprints : ∀ element ∈ descriptionElements description ++ elements,
        element.Prints style p.kind := Production.elements_print hreadable hspells hknown
      fun slot subgoal c hc => by
        rcases List.mem_append.1 hc with hmem | hmem
        · obtain ⟨-, rfl, hsome⟩ := mem_descriptionElements hmem
          exact hdesc c hsome
        · exact ihchildren slot subgoal c hmem (hmarks hc)
    obtain ⟨hanchored, hknown'⟩ := Production.body_pieces hreadable hspells
      fun element hmem => hprints element (List.mem_append_right _ hmem)
    refine ⟨fun parent hfits => ?_, Piece.described_pieces hdesc hanchored hknown'⟩
    have hfits' := List.all_eq_true.1 hfits p hgoal
    have hnode := Production.forNode_finish hreadable (by simpa using hfits') hdescribed hspells hquery
    rw [Production.finish, Node.layout, Node.layoutChildren_eq, Production.writeNode_eq hreadable,
      List.map_map]
    change (Production.forNode parent p.kind _ (List.map Prod.fst _)).rule.write _ _ _ = _
    rw [hnode]
    exact Production.write_eq hreadable hdescribed hspells hprints
  | @query goal c comments hgoal hshorthand hchild ih =>
    exact .query (hknown _ List.mem_cons_self).2.2 (ih fun mark hmark => hknown mark (.tail _ hmark))
  | @nonNull marks pieces node comments h hkind ih =>
    obtain ⟨hmarks, hmark⟩ := Mark.known_append.1 hknown
    exact .nonNull (hmark _ (List.mem_singleton_self _)).2.2 (ih hmarks)

end GraphQLTree
