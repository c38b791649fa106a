import GraphQLTree.Proofs.Grammar.Around
import GraphQLTree.Proofs.Grammar.Starts

/-!
# Writing the items of rules

A printer goes through the items of a rule and writes each behind a **layout**. What it writes for an
item is the pieces of the elements that the item spells (`Item.write_eq`), provided that the children
that it is given are those of the elements (`GivenBy`). It decides about groups by these children and by
the atom, so elements and printer agree on which groups there are (`Presence.holds_of_spells`,
`Presence.not_holds_of_nil`).
-/

namespace GraphQLTree

open Text (endsLine glue)

/-! ### Layouts -/

/-- Whether a text ends in an own token behind shapes. -/
def Shape.ownBehind (own : Bool) : List Shape → Bool
  | [] => own
  | space _ :: shapes => ownBehind own shapes
  | .own _ _ spare _ :: shapes => ownBehind (!spare) shapes
  | child _ _ :: shapes => ownBehind false shapes

theorem Shape.ownBehind_append (own : Bool) (a b : List Shape) :
    ownBehind own (a ++ b) = ownBehind (ownBehind own a) b := by
  induction a generalizing own with
  | nil => rfl
  | cons shape a ih => cases shape <;> exact ih _

/-- A text ends in an own token if shapes do that don't end in a space. -/
theorem Shape.ownBehind_eq (own : Bool) {shapes : List Shape} (hne : shapes ≠ [])
    (hlast : ∀ piece, shapes.getLast? ≠ some (.space piece)) :
    ownBehind own shapes = endsOwn shapes := by
  induction shapes generalizing own with
  | nil => exact absurd rfl hne
  | cons shape shapes ih =>
    cases shapes with
    | nil =>
      cases shape with
      | space piece => exact absurd rfl (hlast piece)
      | _ => rfl
    | cons shape' shapes =>
      have hih (own : Bool) := ih own (by simp) (by simpa using hlast)
      cases shape <;> exact hih _

/-- Whether an element is printed as its pieces in a style. -/
def Element.Prints (style : Style) (parent : Kind) : Element → Prop
  | space _ => True
  | own _ word _ _ =>
    word.token.Known ∧ word.token.isComment = false ∧ SoundComments word.comments
  | child _ _ c =>
    c.node.layout style (some parent) = Piece.render style.pretty (Piece.styled style c.pieces) ∧
      Piece.Anchored c.pieces ∧ Piece.Known c.pieces

namespace Layout

/-- A layout behind which the pieces of elements are written. -/
def after (style : Style) (elements : List Element) (layout : Layout) : Layout :=
  ⟨Piece.putAll style.pretty layout.text (Piece.styled style (Elements.pieces elements)),
    Shape.ownBehind layout.own (Elements.shapes elements)⟩

variable {style : Style}

@[simp] theorem after_nil (layout : Layout) : layout.after style [] = layout := rfl

theorem after_append (a b : List Element) (layout : Layout) :
    layout.after style (a ++ b) = (layout.after style a).after style b := by
  simp only [after, Elements.pieces_append, Elements.shapes_append, Piece.styled_append,
    Piece.putAll_append, Shape.ownBehind_append]

theorem after_cons (e : Element) (es : List Element) (layout : Layout) :
    layout.after style (e :: es) = (layout.after style [e]).after style es :=
  after_append [e] es layout

theorem after_soft (layout : Layout) :
    layout.after style [.space .soft] = layout.space style.space := rfl

theorem after_hard (layout : Layout) : layout.after style [.space .hard] = layout.space [' '] := rfl

theorem after_comma (layout : Layout) :
    layout.after style [.space .comma] =
      if endsLine layout.text then layout else layout.space style.separator := by
  cases h : endsLine layout.text <;>
    simp [after, Piece.putAll, Piece.put, Piece.styled, Piece.styled?, Elements.pieces,
      Elements.shapes, Shape.ownBehind, h, space, Style.separator, Style.space, Piece.text,
      Piece.softSpace]

theorem after_own (word : Word) (gift : Gift) (layout : Layout) :
    layout.after style [.own .comments word false gift] = layout.token word.token.write := rfl

theorem after_spare (slot : Slot) (word : Word) (gift : Gift) (layout : Layout) :
    layout.after style [.own slot word true gift] = { layout with own := false } := by
  cases slot <;> rfl

theorem after_child {parent : Kind} {slot : Slot} {goal : Goal} {c : Child}
    (h : (Element.child slot goal c).Prints style parent) (layout : Layout) :
    layout.after style [.child slot goal c] =
      layout.child (c.node.layout style (some parent)) := by
  obtain ⟨hlayout, hanchored, hknown⟩ := h
  have hput : Piece.putAll style.pretty layout.text (Piece.styled style c.pieces) =
      Text.glue layout.text (Piece.render style.pretty (Piece.styled style c.pieces)) :=
    Piece.putAll_eq_glue (hanchored.styled style).opens (hknown.styled style) layout.text
  simp only [after, Elements.pieces_cons, Element.pieces, Elements.pieces_nil, List.append_nil, hput,
    hlayout]
  rfl

/-- A bracket is written with its comments. -/
theorem after_bracket {parent : Kind} {slot : Slot} (hslot : slot ≠ .comments) {word : Word}
    {gift : Gift} (h : (Element.own slot word false gift).Prints style parent) (layout : Layout) :
    layout.after style [.own slot word false gift] =
      layout.token (attachComments style
        ((Node.ofComments slot word.comments).map (Node.printed style parent))
        word.token.write true) := by
  obtain ⟨hknown, hcomment, hcomments⟩ := h
  have hbody : Piece.Known [.token word.token] := by simpa [Piece.Known] using ⟨hknown, hcomment⟩
  have hanchored : Piece.Anchored [.token word.token] := trivial
  have hattach : attachComments style
        ((Node.ofComments slot word.comments).map (Node.printed style parent))
        (Piece.render style.pretty (Piece.styled style [.token word.token])) true =
      Piece.render style.pretty (Piece.styled style (around word.comments [.token word.token] true)) :=
    attachComments_eq hcomments hanchored hbody (fun _ _ => ⟨[], word.token, rfl⟩) slot parent
  have hrender : Piece.render style.pretty (Piece.styled style [.token word.token]) =
      word.token.write := Text.nil_glue _
  have hput : Piece.putAll style.pretty layout.text
        (Piece.styled style (around word.comments [.token word.token] true)) =
      Text.glue layout.text (Piece.render style.pretty
        (Piece.styled style (around word.comments [.token word.token] true))) :=
    Piece.putAll_eq_glue ((hanchored.around word.comments true).styled style).opens
      ((hbody.around hcomments true).styled style) layout.text
  have hpieces : Elements.pieces [.own slot word false gift] =
      around word.comments [.token word.token] true := by
    cases slot <;> first | exact absurd rfl hslot | exact List.append_nil _
  rw [hrender] at hattach
  rw [after, hpieces, hput, hattach]
  rfl

end Layout

/-! ### Parts -/

/-- A token that gives an atom is written as the atom. -/
theorem Literal.write_eq {l : Literal} {token : Token} {atom : Atom}
    (h : l.read? token = some atom) : atom.write = token.write := by
  -- Reserved words and enumerated names are written with the text they are looked up by; the other
  -- literals keep what their token says.
  cases l with
  | boolean =>
    cases token with
    | name text =>
      simp only [read?] at h
      split at h
      · next hk =>
        cases h
        rw [Keyword.eq_text_of_ofName? hk]
        rfl
      · next hk =>
        cases h
        rw [Keyword.eq_text_of_ofName? hk]
        rfl
      · cases h
    | _ => cases h
  | enumValue =>
    cases token with
    | name text =>
      simp only [read?] at h
      split at h <;> cases h
      rfl
    | _ => cases h
  | operation =>
    cases token with
    | name text =>
      obtain ⟨operation, hfind, rfl⟩ := Option.map_eq_some_iff.1 h
      have htext := List.find?_some hfind
      rw [← eq_of_beq htext]
      rfl
    | _ => cases h
  | repeatable =>
    cases token with
    | name text =>
      simp only [read?] at h
      split at h
      · next hk =>
        cases h
        rw [Keyword.eq_text_of_ofName? hk]
        rfl
      · cases h
    | _ => cases h
  | executable =>
    cases token with
    | name text =>
      obtain ⟨location, hfind, rfl⟩ := Option.map_eq_some_iff.1 h
      have htext := List.find?_some hfind
      rw [← eq_of_beq htext]
      rfl
    | _ => cases h
  | typeSystem =>
    cases token with
    | name text =>
      obtain ⟨location, hfind, rfl⟩ := Option.map_eq_some_iff.1 h
      have htext := List.find?_some hfind
      rw [← eq_of_beq htext]
      rfl
    | _ => cases h
  | _ => cases token <;> cases h <;> rfl

section Parts

variable {style : Style} {parent : Kind}

/-- Whether the children in some slots are those that elements give. -/
def GivenBy (style : Style) (parent : Kind) (children : List Printed) (elements : List Element)
    (slots : List Slot) : Prop :=
  ∀ slot ∈ slots, printedIn slot children =
    (entriesIn slot (Elements.entries elements)).map (Node.printed style parent)

theorem printedText_eq {slot : Slot} {children : List Printed} {entry : Slot × Node}
    (h : printedIn slot children = [entry].map (Node.printed style parent)) :
    printedText slot children = entry.2.layout style (some parent) := by
  rw [printedText, h]
  rfl

private theorem entriesIn_child (slot : Slot) (goal : Goal) (c : Child) :
    entriesIn slot (Elements.entries [.child slot goal c]) = [(slot, c.node)] := by
  simp [entriesIn]

private theorem entriesIn_children (slot : Slot) (children : List Child) :
    entriesIn slot (children.map fun c => (slot, c.node)) =
      children.map fun c => (slot, c.node) :=
  List.filter_eq_self.2 (by simp)

private theorem entriesIn_name {slot : Slot} (hslot : slot ≠ .comments) (word : Word)
    (text : String) :
    entriesIn slot (Elements.entries [.own .comments word false (.name slot text)]) =
      [(slot, .ofName text)] := by
  rw [Elements.entries_cons, Elements.entries_nil, List.append_nil, Element.entries,
    entriesIn_append, entriesIn_ofComments_of_ne hslot.symm]
  simp [entriesIn]

private theorem listItem_eq {slot : Slot} {goal : Goal} {c : Child}
    (h : (Element.child slot goal c).Prints style parent) (layout : Layout) :
    Layout.listItem style.separator layout (Node.printed style parent (slot, c.node)) =
      layout.after style [.space .comma, .child slot goal c] := by
  rw [Layout.after_cons, Layout.after_child h, Layout.after_comma]
  rfl

/-- The items of a list are written as their elements. -/
private theorem list_eq {slot : Slot} {goal : Goal} {children : List Child}
    (h : ∀ c ∈ children, (Element.child slot goal c).Prints style parent) (padded : Bool)
    (layout : Layout) :
    Layout.list style padded layout
        ((children.map fun c => (slot, c.node)).map (Node.printed style parent)) =
      layout.after style (Element.listed slot goal padded children) := by
  have htail (children : List Child)
      (h : ∀ c ∈ children, (Element.child slot goal c).Prints style parent) (layout : Layout) :
      ((children.map fun c => (slot, c.node)).map (Node.printed style parent)).foldl
          (Layout.listItem style.separator) layout =
        layout.after style (Element.listedTail slot goal children) := by
    induction children generalizing layout with
    | nil => rfl
    | cons c children ih =>
      rw [Element.listedTail, List.flatMap_cons, Layout.after_append, ← listItem_eq (h c (by simp))]
      exact ih (fun c hc => h c (by simp [hc])) _
  cases children with
  | nil => rfl
  | cons c children =>
    have hpadding (layout : Layout) :
        layout.space (if style.pretty && padded then [' '] else []) =
          layout.after style (if padded then [.space .soft] else []) := by
      cases padded with
      | true => simp only [Bool.and_true]; rfl
      | false => simp [Layout.space, Layout.after, Piece.putAll, Piece.styled, Elements.pieces,
          Elements.shapes, Shape.ownBehind]
    rw [Element.listed, Layout.after_append, Layout.after_append, Layout.after_cons,
      Layout.after_child (h c (by simp)), ← htail children fun c hc => h c (by simp [hc]),
      ← hpadding, ← hpadding]
    rfl

/-- Children with a space before each are written as their elements. -/
private theorem repeated_eq {slot : Slot} {goal : Goal} {children : List Child}
    (h : ∀ c ∈ children, (Element.child slot goal c).Prints style parent) (layout : Layout) :
    ((children.map fun c => (slot, c.node)).map (Node.printed style parent)).foldl
        (fun layout item => (layout.space style.space).child item.text) layout =
      layout.after style (Element.repeated slot goal children) := by
  induction children generalizing layout with
  | nil => rfl
  | cons c children ih =>
    rw [Element.repeated, List.flatMap_cons, Layout.after_append, Layout.after_cons,
      Layout.after_child (h c (by simp)), Layout.after_soft]
    exact ih (fun c hc => h c (by simp [hc])) _

/-- Children with delimiters between them are written as their elements. -/
private theorem delimited_eq {slot : Slot} {goal : Goal} {delimiter : Punctuator} {first : Child}
    {others : List (Word × Child)} (hfirst : (Element.child slot goal first).Prints style parent)
    (h : ∀ next ∈ others, next.1.token = .punct delimiter ∧
      (Element.child slot goal next.2).Prints style parent) (layout : Layout) :
    Layout.delimited (style.space ++ delimiter.text.toList ++ style.space) layout
        (((slot, first.node) :: others.map fun next => (slot, next.2.node)).map
          (Node.printed style parent)) =
      layout.after style (Element.separated slot goal first others) := by
  -- The delimiter and the spaces around it are put as one text, though they are three elements.
  have hdelimiter (layout : Layout) :
      (layout.space (style.space ++ delimiter.text.toList ++ style.space)).text =
        (((layout.space style.space).token delimiter.text.toList).space style.space).text := by
    have hglue : glue (glue style.space delimiter.text.toList) style.space =
        style.space ++ delimiter.text.toList ++ style.space := by
      unfold Style.space
      cases style.pretty <;> cases delimiter <;> rfl
    simp only [Layout.space, Layout.token]
    rw [Text.glue_assoc, Text.glue_assoc, ← Text.glue_assoc style.space, hglue]
  have htail (layout : Layout) :
      (others.map fun next => (slot, next.2.node)).foldl
          (fun layout item => (layout.space (style.space ++ delimiter.text.toList ++
            style.space)).child (Node.printed style parent item).text) layout =
        layout.after style
          (others.flatMap fun next => Element.delimited slot goal next.1 next.2) := by
    clear hfirst
    -- The first child is put by the caller, so the induction is on the others from any layout.
    induction others generalizing layout with
    | nil => rfl
    | cons next others ih =>
      obtain ⟨htoken, hprints⟩ := h next (by simp)
      have hwrite : next.1.token.write = delimiter.text.toList := by
        rw [htoken]
        rfl
      rw [List.flatMap_cons, Layout.after_append, Element.delimited, Layout.after_cons,
        Layout.after_cons (.own ..), Layout.after_cons (.space .soft) [_], Layout.after_child hprints,
        Layout.after_own, Layout.after_soft, Layout.after_soft, hwrite, List.map_cons,
        List.foldl_cons]
      refine (ih (fun next hn => h next (by simp [hn])) _).trans ?_
      simp only [Layout.child, hdelimiter]
      rfl
  rw [Element.separated, Layout.after_cons, Layout.after_child hfirst, ← htail, List.map_cons,
    Layout.delimited, List.foldl_map]
  rfl

private theorem entriesIn_separated_self {slot : Slot} (hslot : slot.holdsComments = false)
    (goal : Goal) (first : Child) (others : List (Word × Child)) :
    entriesIn slot (Elements.entries (Element.separated slot goal first others)) =
      (slot, first.node) :: others.map fun next => (slot, next.2.node) := by
  have hne : Slot.comments ≠ slot := by
    rintro rfl
    cases hslot
  have hfirst : entriesIn slot [(slot, first.node)] = [(slot, first.node)] := by simp [entriesIn]
  have hothers : entriesIn slot (others.map fun next => (slot, next.2.node)) =
      others.map fun next => (slot, next.2.node) := by
    refine List.filter_eq_self.2 fun entry he => ?_
    obtain ⟨next, -, rfl⟩ := List.mem_map.1 he
    exact decide_eq_true rfl
  rw [Element.entries_separated, entriesIn_append, entriesIn_separated hslot, hfirst, hothers,
    entriesIn_ofComments_of_ne hne, List.append_nil, List.singleton_append]

variable {atom : Atom} {children : List Printed}

private theorem separated_eq {slot : Slot} (hslot : slot.holdsComments = false) {goal : Goal}
    {delimiter : Punctuator} {first : Child} {others : List (Word × Child)}
    (htokens : ∀ next ∈ others, next.1.token = .punct delimiter)
    (hprints : ∀ element ∈ Element.separated slot goal first others, element.Prints style parent)
    (hin : printedIn slot children =
      (entriesIn slot (Elements.entries (Element.separated slot goal first others))).map
        (Node.printed style parent)) (layout : Layout) :
    (Part.separated slot goal delimiter).write style atom children layout =
      layout.after style (Element.separated slot goal first others) := by
  rw [entriesIn_separated_self hslot] at hin
  have hchild {c : Child} (hc : c ∈ first :: others.map Prod.snd) :=
    hprints _ (Element.mem_separated slot goal hc)
  rw [Part.write, hin]
  exact delimited_eq (hchild List.mem_cons_self) (fun next hn => ⟨htokens next hn,
    hchild (List.mem_cons_of_mem _ (List.mem_map_of_mem hn))⟩) layout

/-- A spare delimiter in front of children isn't written. -/
private theorem spared_eq {slot : Slot} (hslot : slot.holdsComments = false) {goal : Goal}
    {delimiter : Punctuator} {n : Nat} {elements : List Element}
    (hshapes : Elements.shapes elements =
      .spare delimiter :: Shape.separated slot goal delimiter n)
    (hprints : ∀ element ∈ elements, element.Prints style parent)
    (hin : printedIn slot children =
      (entriesIn slot (Elements.entries elements)).map (Node.printed style parent))
    (layout : Layout) :
    (Part.separated slot goal delimiter).write style atom children layout =
      layout.after style elements := by
  obtain ⟨es, fs, rfl, hes, hfs⟩ :=
    Elements.exists_append_of_shapes (a := [.spare delimiter]) hshapes
  obtain ⟨comments, rfl⟩ := Elements.eq_own_of_shapes hes
  obtain ⟨first, others, rfl, -, htokens⟩ := Elements.exists_separated_of_shapes hfs
  have hne : Slot.comments ≠ slot := by
    rintro rfl
    cases hslot
  have hspare : entriesIn slot (Elements.entries
      [.own .comments ⟨.punct delimiter, comments⟩ true .nothing]) = [] := by
    rw [Elements.entries_cons, Elements.entries_nil, List.append_nil, Element.entries,
      Gift.entries, List.append_nil, entriesIn_ofComments_of_ne hne]
    nofun
  rw [Elements.entries_append, entriesIn_append, hspare, List.nil_append] at hin
  have hwrite : (Part.separated slot goal delimiter).write style atom children
      { layout with own := false } = _ :=
    separated_eq hslot htokens (fun e he => hprints e (List.mem_append_right _ he)) hin _
  rw [entriesIn_separated_self hslot] at hin
  rw [Layout.after_append, Layout.after_spare, ← hwrite, Part.write, Part.write, hin]
  rfl

/-- A child is written as it is printed. -/
private theorem child_eq {slot : Slot} {goal : Goal} {elements : List Element}
    (hshapes : Elements.shapes elements = [.child slot goal])
    (hprints : ∀ element ∈ elements, element.Prints style parent)
    (hin : printedIn slot children =
      (entriesIn slot (Elements.entries elements)).map (Node.printed style parent))
    (layout : Layout) : layout.child (printedText slot children) = layout.after style elements := by
  obtain ⟨c, rfl⟩ := Elements.eq_child_of_shapes hshapes
  rw [entriesIn_child] at hin
  rw [printedText_eq hin, Layout.after_child (hprints _ List.mem_cons_self)]

/-- A name is written with the space in front of it. -/
private theorem spacedName_eq {slot : Slot} (hslot : slot ≠ .comments) {text : String}
    {elements : List Element}
    (hshapes : Elements.shapes elements =
      [.space .hard, .own .comments (.name text) false (.name slot text)])
    (hprints : ∀ element ∈ elements, element.Prints style parent)
    (hin : printedIn slot children =
      (entriesIn slot (Elements.entries elements)).map (Node.printed style parent))
    (layout : Layout) :
    (Part.spacedName slot).write style atom children layout = layout.after style elements := by
  obtain ⟨comments, rfl⟩ := Elements.eq_hard_own_of_shapes hshapes
  have hentries : entriesIn slot (Elements.entries
      ([.space .hard] ++ [.own .comments ⟨.name text, comments⟩ false (.name slot text)])) =
      [(slot, .ofName text)] := entriesIn_name hslot _ text
  rw [hentries] at hin
  obtain ⟨hknown, -⟩ := hprints (.own .comments ⟨.name text, comments⟩ false (.name slot text))
    (by simp)
  obtain ⟨c, l, hcl, hc⟩ := hknown.exists_cons
  have hwrite : text.toList = c :: l := hcl
  -- A name doesn't start with a line feed, so the space in front of it stays.
  have hhead : text.toList.head? ≠ some '\n' := by
    rw [hwrite]
    rintro he
    obtain rfl := Option.some.inj he
    cases hc
  have hglue : ' ' :: text.toList = glue [' '] text.toList :=
    (Text.glue_of_head?_ne (a := [' ']) rfl hhead).symm
  rw [Layout.after_append, Layout.after_own, Layout.after_hard, Part.write, printedText_eq hin]
  simp only [Layout.token, Layout.space, Text.glue_assoc]
  exact congrArg (fun text => (⟨glue layout.text text, true⟩ : Layout)) hglue

/-- A part writes the pieces of its elements. -/
theorem Part.write_eq {part : Part} (hreadable : part.isReadable = true)
    (hcomments : .comments ∉ part.slots) {elements : List Element}
    (hspells : part.Spells (Elements.shapes elements))
    (hprints : ∀ element ∈ elements, element.Prints style parent)
    (hatom : ∀ a ∈ Shape.atoms (Elements.shapes elements), atom = a)
    (hgiven : GivenBy style parent children elements part.slots) (layout : Layout) :
    part.write style atom children layout = layout.after style elements := by
  generalize hshapes : Elements.shapes elements = shapes at hspells
  -- In every case the children that the part finds in its slot are those of its elements
  -- (`hgiven`).
  cases hspells with
  | gap g =>
    obtain rfl := Elements.eq_space_of_shapes hshapes
    cases g <;> rfl
  | punct p =>
    obtain ⟨comments, rfl⟩ := Elements.eq_own_of_shapes hshapes
    rfl
  | bracket p slot =>
    -- Comments in this slot belong to the bracket and not to the node.
    have hslot : slot ≠ .comments := fun he => hcomments (by simp [slots, he])
    obtain ⟨comments, rfl⟩ := Elements.eq_own_of_shapes hshapes
    have hin : printedIn slot children =
        (Node.ofComments slot comments).map (Node.printed style parent) := by
      rw [hgiven slot (by simp [slots]), Elements.entries_cons, Elements.entries_nil,
        List.append_nil, Element.entries, Gift.entries, List.append_nil, entriesIn_ofComments]
      intro _ _ he
      cases he
    rw [Layout.after_bracket hslot (hprints _ List.mem_cons_self), Part.write, hin]
    rfl
  | keyword k =>
    obtain ⟨comments, rfl⟩ := Elements.eq_own_of_shapes hshapes
    rfl
  | name slot rule text h =>
    have hslot : slot ≠ .comments := fun he => hcomments (by simp [slots, he])
    obtain ⟨comments, rfl⟩ := Elements.eq_own_of_shapes hshapes
    have hin := hgiven slot (by simp [slots])
    rw [entriesIn_name hslot] at hin
    rw [Part.write, printedText_eq hin, Layout.after_own]
    rfl
  | spacedName slot text =>
    have hslot : slot ≠ .comments := fun he => hcomments (by simp [slots, he])
    exact spacedName_eq hslot hshapes hprints (hgiven slot (by simp [slots])) layout
  | literal l token a h =>
    obtain ⟨comments, rfl⟩ := Elements.eq_own_of_shapes hshapes
    obtain rfl := hatom a (by simp [Elements.shapes, Shape.atoms])
    rw [Part.write, Literal.write_eq h]
    rfl
  | child slot goal => exact child_eq hshapes hprints (hgiven slot (by simp [slots, asks])) layout
  | opened p slot goal => exact child_eq hshapes hprints (hgiven slot (by simp [slots, asks])) layout
  | listed slot goal close allowEmpty n h =>
    obtain ⟨cs, rfl, -⟩ := Elements.exists_listed_of_shapes hshapes
    have hin := hgiven slot (by simp [slots, asks])
    rw [Element.entries_listed, entriesIn_children] at hin
    rw [Part.write, hin]
    exact list_eq (fun c hc => hprints _ (Element.mem_listed slot goal _ hc)) _ layout
  | repeated slot goal start n =>
    obtain ⟨cs, rfl, -⟩ := Elements.exists_repeated_of_shapes hshapes
    have hin := hgiven slot (by simp [slots, asks])
    rw [Element.entries_repeated, entriesIn_children] at hin
    rw [Part.write, hin]
    exact repeated_eq (fun c hc => hprints _ (Element.mem_repeated slot goal hc)) layout
  | separated slot goal delimiter n =>
    obtain ⟨first, others, rfl, -, htokens⟩ := Elements.exists_separated_of_shapes hshapes
    have hslot := (isReadable_of_asks hreadable (List.mem_singleton_self (slot, goal))).1
    exact separated_eq hslot htokens hprints (hgiven slot (by simp [slots, asks])) layout
  | spared slot goal delimiter n =>
    have hslot := (isReadable_of_asks hreadable (List.mem_singleton_self (slot, goal))).1
    exact spared_eq hslot hshapes hprints (hgiven slot (by simp [slots, asks])) layout
  | demand p =>
    obtain rfl := List.map_eq_nil_iff.1 hshapes
    rfl

theorem GivenBy.left {a b : List Element} {slots slots' : List Slot}
    (h : GivenBy style parent children (a ++ b) (slots ++ slots')) (hnodup : (slots ++ slots').Nodup)
    (hcomments : .comments ∉ slots ++ slots')
    (hb : ∀ shape ∈ Elements.shapes b, shape.filled ⊆ .comments :: slots') :
    GivenBy style parent children a slots := by
  intro slot hslot
  have hne : slot ≠ .comments := by
    rintro rfl
    exact hcomments (List.mem_append_left _ hslot)
  have hother : slot ∉ slots' := fun hmem => (List.nodup_append.1 hnodup).2.2 slot hslot slot hmem rfl
  rw [h slot (List.mem_append_left _ hslot), Elements.entriesIn_left hne hother hb]

theorem GivenBy.right {a b : List Element} {slots slots' : List Slot}
    (h : GivenBy style parent children (a ++ b) (slots ++ slots')) (hnodup : (slots ++ slots').Nodup)
    (hcomments : .comments ∉ slots ++ slots')
    (ha : ∀ shape ∈ Elements.shapes a, shape.filled ⊆ .comments :: slots) :
    GivenBy style parent children b slots' := by
  intro slot hslot
  have hne : slot ≠ .comments := by
    rintro rfl
    exact hcomments (List.mem_append_right _ hslot)
  have hother : slot ∉ slots := fun hmem => (List.nodup_append.1 hnodup).2.2 slot hmem slot hslot rfl
  rw [h slot (List.mem_append_right _ hslot), Elements.entriesIn_right hne hother ha]

/-- Parts write the pieces of their elements one after the other. -/
theorem writeParts_eq {parts : List Part} (hreadable : ∀ part ∈ parts, part.isReadable = true)
    (hnodup : (parts.flatMap Part.slots).Nodup) (hcomments : .comments ∉ parts.flatMap Part.slots)
    {elements : List Element} (hspells : SpellParts parts (Elements.shapes elements))
    (hprints : ∀ element ∈ elements, element.Prints style parent)
    (hatom : ∀ a ∈ Shape.atoms (Elements.shapes elements), atom = a)
    (hgiven : GivenBy style parent children elements (parts.flatMap Part.slots))
    (layout : Layout) :
    parts.foldl (fun layout part => part.write style atom children layout) layout =
      layout.after style elements := by
  induction parts generalizing elements layout with
  | nil =>
    obtain rfl := List.map_eq_nil_iff.1 hspells.eq_nil
    rfl
  | cons part parts ih =>
    obtain ⟨es, fs, rfl, ha, hb⟩ := hspells.exists_split
    rw [Elements.shapes_append, Shape.atoms_append] at hatom
    rw [List.flatMap_cons] at hnodup hcomments hgiven
    rw [List.foldl_cons, Layout.after_append, Part.write_eq (hreadable part List.mem_cons_self)
      (fun hmem => hcomments (List.mem_append_left _ hmem)) ha
      (fun e he => hprints e (List.mem_append_left _ he))
      (fun a ha => hatom a (List.mem_append_left _ ha))
      (hgiven.left hnodup hcomments hb.filled)]
    exact ih (fun p hp => hreadable p (List.mem_cons_of_mem _ hp)) (List.nodup_append.1 hnodup).2.1
      (fun hmem => hcomments (List.mem_append_right _ hmem)) hb
      (fun e he => hprints e (List.mem_append_right _ he))
      (fun a ha => hatom a (List.mem_append_right _ ha))
      (hgiven.right hnodup hcomments ha.filled) _

/-- A printer writes a group that the elements of a node have. -/
theorem Presence.holds_of_spells {guard : Guard} {presence : Presence} {parts : List Part}
    (hreadable : ∀ part ∈ parts, part.isReadable = true)
    (hdecided : (Item.group guard presence parts).isDecided = true) {elements : List Element}
    (hspells : SpellParts parts (Elements.shapes elements))
    (hatom : ∀ a ∈ Shape.atoms (Elements.shapes elements), atom = a)
    (hgiven : GivenBy style parent children elements (parts.flatMap Part.slots)) :
    presence.holds atom children = true := by
  have htidy : ∀ shape ∈ Elements.shapes elements, shape.IsTidy := by
    intro shape hmem
    obtain ⟨part, hpart, hmakes⟩ := hspells.makes shape hmem
    exact hmakes.isTidy (hreadable part hpart)
  cases presence with
  | filled slot =>
    -- A part of the group always gives something to the slot that the printer looks at.
    obtain ⟨part, hpart, hgives⟩ := List.any_eq_true.1 hdecided
    have hgives := of_decide_eq_true hgives
    obtain ⟨a, ha, hsub⟩ := hspells.exists_of_mem hpart
    obtain ⟨shape, hshape, hslot⟩ := List.mem_filterMap.1 (ha.gives hgives)
    have hmem : slot ∈ Shape.slots (Elements.shapes elements) :=
      List.mem_filterMap.2 ⟨shape, hsub hshape, hslot⟩
    have hholds : slot.holdsComments = false := (htidy shape (hsub hshape)).slot? hslot
    have hfirst : slot ∈ (entriesIn slot (Elements.entries elements)).map Prod.fst := by
      rw [Elements.slots_entriesIn htidy hholds]
      exact List.mem_filter.2 ⟨hmem, decide_eq_true rfl⟩
    have hslots : slot ∈ parts.flatMap Part.slots :=
      List.mem_flatMap.2 ⟨part, hpart, Part.mem_slots_of_gives hgives⟩
    obtain ⟨entry, hentry, -⟩ := List.mem_map.1 hfirst
    rw [holds, hgiven slot hslots]
    cases hentries : entriesIn slot (Elements.entries elements) with
    | nil =>
      rw [hentries] at hentry
      cases hentry
    | cons entry entries => rfl
  | repeatable =>
    -- The group has the literal that makes the atom what the printer looks for.
    obtain ⟨a, ha, hsub⟩ := hspells.exists_of_mem (List.contains_iff_mem.1 hdecided)
    cases ha with
    | literal l token a hread =>
      have hmem : a ∈ Shape.atoms (Elements.shapes elements) := by
        obtain ⟨b, c, hbc⟩ := List.append_of_mem (hsub List.mem_cons_self)
        rw [hbc, Shape.atoms_append]
        exact List.mem_append_right _ List.mem_cons_self
      have ha : a = .repeatable true := by
        cases token with
        | name text =>
          simp only [Literal.read?] at hread
          split at hread <;> cases hread
          rfl
        | _ => cases hread
      rw [holds, hatom a hmem, ha]
      rfl

/-- A printer leaves out a group that the elements of a node don't have. -/
theorem Presence.not_holds_of_nil {guard : Guard} {presence : Presence} {parts : List Part}
    (hdecided : (Item.group guard presence parts).isDecided = true)
    (hrepeat : atom = .repeatable true → parts.any Part.hasAtom = false)
    (hgiven : GivenBy style parent children [] (parts.flatMap Part.slots)) :
    presence.holds atom children = false := by
  cases presence with
  | filled slot =>
    obtain ⟨part, hpart, hgives⟩ := List.any_eq_true.1 hdecided
    have hgives := of_decide_eq_true hgives
    have hslots : slot ∈ parts.flatMap Part.slots :=
      List.mem_flatMap.2 ⟨part, hpart, Part.mem_slots_of_gives hgives⟩
    rw [holds, hgiven slot hslots]
    rfl
  | repeatable =>
    have hhas := Item.hasAtom_of_repeatable hdecided
    refine decide_eq_false fun he => ?_
    rw [hrepeat he] at hhas
    cases hhas

/-- An item writes the pieces of its elements. -/
theorem Item.write_eq {item : Item} (hreadable : item.isReadable = true)
    (hdecided : item.isDecided = true) (hnodup : item.slots.Nodup)
    (hcomments : .comments ∉ item.slots) {elements : List Element}
    (hspells : item.Spells (Elements.shapes elements))
    (hprints : ∀ element ∈ elements, element.Prints style parent)
    (hatom : ∀ a ∈ Shape.atoms (Elements.shapes elements), atom = a)
    (hrepeat : atom = .repeatable true → item.parts.any Part.hasAtom = false ∨
      .repeatable true ∈ Shape.atoms (Elements.shapes elements))
    (hgiven : GivenBy style parent children elements item.slots) (layout : Layout) :
    item.write style atom children layout = layout.after style elements := by
  cases item with
  | part p =>
    have hslots : (Item.part p).slots = p.slots := List.append_nil _
    rw [hslots] at hcomments hgiven
    exact Part.write_eq hreadable hcomments hspells.of_part hprints hatom hgiven layout
  | group guard presence parts =>
    have hparts : ∀ part ∈ parts, part.isReadable = true := List.all_eq_true.1 hreadable
    rcases hspells.of_group with hnil | hspells
    · obtain rfl := List.map_eq_nil_iff.1 hnil
      have hholds : presence.holds atom children = false :=
        Presence.not_holds_of_nil hdecided
          (fun he => (hrepeat he).resolve_right (by simp [Elements.shapes, Shape.atoms])) hgiven
      rw [Item.write, hholds]
      rfl
    · have hholds : presence.holds atom children = true :=
        Presence.holds_of_spells hparts hdecided hspells hatom hgiven
      rw [Item.write, hholds, if_pos rfl]
      exact writeParts_eq hparts hnodup hcomments hspells hprints hatom hgiven layout

/-- Items write the pieces of their elements one after the other. -/
theorem writeItems_eq {items : List Item} (hreadable : ∀ item ∈ items, item.isReadable = true)
    (hdecided : ∀ item ∈ items, item.isDecided = true) (hnodup : (slotsOfItems items).Nodup)
    (hcomments : .comments ∉ slotsOfItems items)
    (hsingle : SingleAtom (items.flatMap Item.parts)) {elements : List Element}
    (hspells : SpellItems items (Elements.shapes elements))
    (hprints : ∀ element ∈ elements, element.Prints style parent)
    (hatom : ∀ a ∈ Shape.atoms (Elements.shapes elements), atom = a)
    (hrepeat : atom = .repeatable true → (items.flatMap Item.parts).any Part.hasAtom = false ∨
      .repeatable true ∈ Shape.atoms (Elements.shapes elements))
    (hgiven : GivenBy style parent children elements (slotsOfItems items)) (layout : Layout) :
    items.foldl (fun layout item => item.write style atom children layout) layout =
      layout.after style elements := by
  induction items generalizing elements layout with
  | nil =>
    obtain rfl := List.map_eq_nil_iff.1 hspells.eq_nil
    rfl
  | cons item items ih =>
    obtain ⟨es, fs, rfl, ha, hb⟩ := hspells.exists_split
    rw [Elements.shapes_append, Shape.atoms_append] at hatom hrepeat
    rw [slotsOfItems, List.flatMap_cons] at hnodup hcomments hgiven
    rw [List.flatMap_cons] at hsingle hrepeat
    obtain ⟨-, hsingle', hboth⟩ := List.pairwise_append.1 hsingle
    -- The atom is given by the item or by the items behind it, but not by both.
    have hsides : item.parts.any Part.hasAtom = false ∨
        (items.flatMap Item.parts).any Part.hasAtom = false := by
      cases hitem : item.parts.any Part.hasAtom with
      | false => exact .inl rfl
      | true =>
        obtain ⟨p, hp, hatom⟩ := List.any_eq_true.1 hitem
        refine .inr (List.any_eq_false.2 fun q hq hatom' => ?_)
        have hnot := hboth p hp q hq
        rw [hatom, hatom'] at hnot
        cases hnot
    -- So the one that has no atom may be left out of what is known of the atom.
    have hitem (he : atom = .repeatable true) : item.parts.any Part.hasAtom = false ∨
        .repeatable true ∈ Shape.atoms (Elements.shapes es) := by
      rcases hsides with hnone | hnone
      · exact .inl hnone
      · rw [Shape.atoms_eq_nil hb.makes hnone, List.append_nil] at hrepeat
        exact (hrepeat he).imp_left fun hany => (Bool.or_eq_false_iff.1 (List.any_append ▸ hany)).1
    have hitems (he : atom = .repeatable true) :
        (items.flatMap Item.parts).any Part.hasAtom = false ∨
          .repeatable true ∈ Shape.atoms (Elements.shapes fs) := by
      rcases hsides with hnone | hnone
      · rw [Shape.atoms_eq_nil ha.makes hnone, List.nil_append] at hrepeat
        exact (hrepeat he).imp_left fun hany => (Bool.or_eq_false_iff.1 (List.any_append ▸ hany)).2
      · exact .inl hnone
    rw [List.foldl_cons, Layout.after_append, Item.write_eq (hreadable item List.mem_cons_self)
      (hdecided item List.mem_cons_self) (List.nodup_append.1 hnodup).1
      (fun hmem => hcomments (List.mem_append_left _ hmem)) ha
      (fun e he => hprints e (List.mem_append_left _ he))
      (fun a ha => hatom a (List.mem_append_left _ ha)) hitem
      (hgiven.left hnodup hcomments hb.filled)]
    exact ih (fun i hi => hreadable i (List.mem_cons_of_mem _ hi))
      (fun i hi => hdecided i (List.mem_cons_of_mem _ hi)) (List.nodup_append.1 hnodup).2.1
      (fun hmem => hcomments (List.mem_append_right _ hmem)) hsingle' hb
      (fun e he => hprints e (List.mem_append_right _ he))
      (fun a ha => hatom a (List.mem_append_right _ ha)) hitems
      (hgiven.right hnodup hcomments ha.filled) _

end Parts

end GraphQLTree
