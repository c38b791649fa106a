import GraphQLTree.Proofs.Grammar.Printing
import GraphQLTree.Proofs.Tree.Bare
import GraphQLTree.Proofs.Tree.Typed

/-!
# Dropping comments

A style that drops comments still has the comments of a node among its printed children, as empty texts.
Such **silent** comments don't show: the rules look at the texts of a node's other children only
(`writeNode_silent`). So a tree is printed without its comments as the tree that never had any
(`Node.print_uncommented`).
-/

namespace GraphQLTree

/-! ### Nodes without comments -/

namespace Node

mutual

/-- A node with all comments taken out of it and out of the nodes below it. -/
def uncommented : Node → Node
  | mk kind atom children => mk kind atom (uncommentedChildren children)

/-- Children without comments. -/
def uncommentedChildren : List (Slot × Node) → List (Slot × Node)
  | [] => []
  | (slot, child) :: rest =>
    if slot.holdsComments then uncommentedChildren rest
    else (slot, uncommented child) :: uncommentedChildren rest

end

theorem uncommentedChildren_eq (children : List (Slot × Node)) :
    uncommentedChildren children = (children.filter fun entry => !entry.1.holdsComments).map
      fun entry => (entry.1, uncommented entry.2) := by
  induction children with
  | nil => rfl
  | cons entry rest ih =>
    obtain ⟨slot, child⟩ := entry
    rw [uncommentedChildren, ih]
    cases h : slot.holdsComments <;> simp [h]

theorem kind_uncommented (node : Node) : node.uncommented.kind = node.kind := by
  obtain ⟨kind, atom, children⟩ := node
  rw [uncommented]
  rfl

end Node

/-! ### Silent comments -/

/-- The printed children that don't stand in slots for comments. -/
def withoutComments (children : List Printed) : List Printed :=
  children.filter fun child => !child.slot.holdsComments

/-- Whether the comments among printed children have no text. -/
def SilentComments (children : List Printed) : Prop :=
  ∀ child ∈ children, child.slot.holdsComments = true → child.text = []

section Rules

variable {children : List Printed} {slot : Slot}

theorem printedIn_withoutComments (h : slot.holdsComments = false) :
    printedIn slot (withoutComments children) = printedIn slot children := by
  rw [printedIn, withoutComments, List.filter_filter]
  refine List.filter_congr fun child _ => ?_
  by_cases hslot : child.slot = slot <;> simp [hslot, h]

theorem printedIn_withoutComments_eq_nil (h : slot.holdsComments = true) :
    printedIn slot (withoutComments children) = [] := by
  rw [printedIn, withoutComments, List.filter_filter]
  refine List.filter_eq_nil_iff.2 fun child _ => ?_
  by_cases hslot : child.slot = slot <;> simp [hslot, h]

theorem printedText_withoutComments (h : slot.holdsComments = false) :
    printedText slot (withoutComments children) = printedText slot children := by
  rw [printedText, printedText, printedIn_withoutComments h]

/-- Comments without text leave no trace around a text, wherever they would go. -/
theorem attachComments_of_empty {style : Style} {comments : List Printed}
    (h : ∀ comment ∈ comments, comment.text = []) (body : List Char) (own : Bool) :
    attachComments style comments body own = body := by
  have hleading (cs : List Printed) (hcs : ∀ c ∈ cs, c ∈ comments) : cs.flatMap Printed.text = [] :=
    List.flatMap_eq_nil_iff.2 fun c hc => h c (hcs c hc)
  have hbehind : (comments.getLast?.map Printed.text).getD [] = [] := by
    cases hlast : comments.getLast? with
    | none => rfl
    | some c => exact h c (List.mem_of_getLast? hlast)
  have hall := hleading comments fun _ hc => hc
  have hdropped := hleading comments.dropLast fun _ hc => List.dropLast_subset _ hc
  simp only [attachComments, hbehind]
  split <;> simp [hall, hdropped, Text.nil_glue]

/-- Whether a part looks for comments if it is a bracket, and for other children if it isn't. -/
def Part.sortsComments : Part → Bool
  | bracket _ slot => slot.holdsComments
  | juxtaposed slot => !slot.holdsComments
  | part => part.slots.all fun slot => !slot.holdsComments

/-- Whether the presence of a group doesn't depend on comments. -/
def Presence.sortsComments : Presence → Bool
  | filled slot => !slot.holdsComments
  | repeatable => true

/-- Whether an item keeps comments and other children apart. -/
def Item.sortsComments : Item → Bool
  | part p => p.sortsComments
  | group _ presence parts => presence.sortsComments && parts.all Part.sortsComments

variable {pretty : Bool} (hsilent : SilentComments children)
include hsilent

/-- All comments in a slot are silent. -/
theorem SilentComments.printedIn (hslot : slot.holdsComments = true) :
    ∀ child ∈ printedIn slot children, child.text = [] := by
  intro child hchild
  obtain ⟨hmem, hchild⟩ := List.mem_filter.1 hchild
  exact hsilent child hmem (by rw [of_decide_eq_true hchild, hslot])

/-- A part is written without silent comments as it is with them. -/
theorem Part.write_silent {part : Part} (hpart : part.sortsComments = true) (atom : Atom)
    (layout : Layout) :
    part.write ⟨pretty, false⟩ atom children layout =
      part.write ⟨pretty, true⟩ atom (withoutComments children) layout := by
  cases part with
  | gap g => cases g <;> rfl
  | punct p => rfl
  | bracket p slot =>
    have hbracket : ∀ comment ∈ GraphQLTree.printedIn slot (withoutComments children),
        comment.text = [] := by
      rw [printedIn_withoutComments_eq_nil hpart]
      simp
    rw [write, write, attachComments_of_empty (hsilent.printedIn hpart),
      attachComments_of_empty hbracket]
  | keyword k => rfl
  | literal l => rfl
  | demand p => rfl
  | juxtaposed slot =>
    rw [write, write, printedIn_withoutComments (by simpa [sortsComments] using hpart)]
    rfl
  | _ =>
    -- The other parts write the children of one slot, which isn't for comments.
    simp only [sortsComments, slots, asks, List.map_cons, List.map_nil, List.all_cons, List.all_nil,
      Bool.and_true, Bool.not_eq_true'] at hpart
    first
      | rw [write, write, printedText_withoutComments hpart]
      | rw [write, write, printedIn_withoutComments hpart]; rfl

/-- An item is written without silent comments as it is with them. -/
theorem Item.write_silent {item : Item} (hitem : item.sortsComments = true) (atom : Atom)
    (layout : Layout) :
    item.write ⟨pretty, false⟩ atom children layout =
      item.write ⟨pretty, true⟩ atom (withoutComments children) layout := by
  cases item with
  | part p => exact Part.write_silent hsilent hitem atom layout
  | group guard presence parts =>
    obtain ⟨hpresence, hparts⟩ := Bool.and_eq_true_iff.1 hitem
    have hholds : presence.holds atom (withoutComments children) = presence.holds atom children := by
      cases presence with
      | filled slot =>
        have hslot : slot.holdsComments = false := by simpa [Presence.sortsComments] using hpresence
        rw [Presence.holds, Presence.holds, printedIn_withoutComments hslot]
      | repeatable => rfl
    have hfold (parts : List Part) (hparts : ∀ part ∈ parts, part.sortsComments = true)
        (layout : Layout) :
        parts.foldl (fun layout part => part.write ⟨pretty, false⟩ atom children layout) layout =
          parts.foldl (fun layout part =>
            part.write ⟨pretty, true⟩ atom (withoutComments children) layout) layout := by
      induction parts generalizing layout with
      | nil => rfl
      | cons part parts ih =>
        obtain ⟨hpart, hparts⟩ := List.forall_mem_cons.1 hparts
        rw [List.foldl_cons, List.foldl_cons, Part.write_silent hsilent hpart, ih hparts]
    rw [write, write, hholds, hfold parts (List.all_eq_true.1 hparts)]

/-- Items are written without silent comments as they are with them. -/
theorem writeItems_silent {items : List Item} (hitems : items.all Item.sortsComments = true)
    (atom : Atom) :
    writeItems ⟨pretty, false⟩ atom children items =
      writeItems ⟨pretty, true⟩ atom (withoutComments children) items := by
  have hfold (items : List Item) (hitems : ∀ item ∈ items, item.sortsComments = true)
      (layout : Layout) :
      items.foldl (fun layout item => item.write ⟨pretty, false⟩ atom children layout) layout =
        items.foldl (fun layout item =>
          item.write ⟨pretty, true⟩ atom (withoutComments children) layout) layout := by
    induction items generalizing layout with
    | nil => rfl
    | cons item items ih =>
      obtain ⟨hitem, hitems⟩ := List.forall_mem_cons.1 hitems
      rw [List.foldl_cons, List.foldl_cons, Item.write_silent hsilent hitem, ih hitems]
  exact hfold items (List.all_eq_true.1 hitems) .empty

/-- A rule is written without silent comments as it is with them. -/
theorem Rule.write_silent {rule : Rule} (hrule : rule.items.all Item.sortsComments = true)
    (atom : Atom) :
    rule.write ⟨pretty, false⟩ atom children =
      rule.write ⟨pretty, true⟩ atom (withoutComments children) := by
  have hslot : Slot.comments.holdsComments = true := rfl
  have hsilent' : ∀ comment ∈ GraphQLTree.printedIn .comments (withoutComments children),
      comment.text = [] := by
    rw [printedIn_withoutComments_eq_nil hslot]
    simp
  have hdescription : Slot.description.holdsComments = false := rfl
  have hattach (style : Style) (comments : List Printed)
      (h : ∀ comment ∈ comments, comment.text = []) (body : List Char) (own : Bool) :
      attachComments style (if rule.items.any Item.keepsComments then [] else comments) body own =
        body := by
    refine attachComments_of_empty ?_ body own
    split
    · simp
    · exact h
  simp only [write, writeItems_silent hsilent hrule atom, hattach _ _ (hsilent.printedIn hslot),
    hattach _ _ hsilent', printedIn_withoutComments hdescription,
    printedText_withoutComments hdescription]

omit hsilent in
/-- Which production a node is written by doesn't depend on its comments. -/
theorem Production.forNode_withoutComments (parent : Option Kind) (kind : Kind) (atom : Atom) :
    forNode parent kind atom ((withoutComments children).map Printed.slot) =
      forNode parent kind atom (children.map Printed.slot) := by
  have hcontains (slot : Slot) (hslot : slot.holdsComments = false) :
      ((withoutComments children).map Printed.slot).contains slot =
        (children.map Printed.slot).contains slot := by
    rw [Bool.eq_iff_iff, List.contains_iff_mem, List.contains_iff_mem, List.mem_map, List.mem_map]
    refine exists_congr fun child => and_congr_left fun heq => ?_
    rw [withoutComments, List.mem_filter, heq, hslot]
    exact and_iff_left rfl
  simp only [forNode, isShorthand, hcontains .name rfl, hcontains .variableDefinitions rfl,
    hcontains .directives rfl]
  rfl

/-- A document is written without silent comments as it is with them. -/
theorem writeDocument_silent :
    writeDocument ⟨pretty, false⟩ children =
      writeDocument ⟨pretty, true⟩ (withoutComments children) := by
  have hslot : Slot.comments.holdsComments = true := rfl
  have hdefinitions : Slot.definitions.holdsComments = false := rfl
  have htexts : (GraphQLTree.printedIn .comments children).flatMap Printed.text = [] :=
    List.flatMap_eq_nil_iff.2 (hsilent.printedIn hslot)
  rw [writeDocument, writeDocument, htexts, printedIn_withoutComments_eq_nil hslot,
    printedIn_withoutComments hdefinitions]
  rfl

/-- A node other than a comment is written without silent comments as it is with them. -/
theorem writeNode_silent (parent : Option Kind) {kind : Kind} (hkind : kind.isComment = false)
    (atom : Atom) :
    writeNode ⟨pretty, false⟩ parent kind atom children =
      writeNode ⟨pretty, true⟩ parent kind atom (withoutComments children) := by
  have hproduction (p : Production) : p.rule.write ⟨pretty, false⟩ atom children =
      p.rule.write ⟨pretty, true⟩ atom (withoutComments children) :=
    Rule.write_silent hsilent
      (Production.check (fun p => p.rule.items.all Item.sortsComments) (by decide) p) atom
  cases kind with
  | name => rfl
  | blockComment => cases hkind
  | inlineComment => cases hkind
  | document => exact writeDocument_silent hsilent
  | _ =>
    simp only [writeNode, Production.forNode_withoutComments]
    exact hproduction _

end Rules

/-! ### Trees -/

namespace Node

/-- A comment in a typed tree is silent in a style that drops comments. -/
theorem Fits.silentComments {node : Node} (h : node.Fits) {style : Style}
    (hdropped : style.comments = false) :
    SilentComments (node.children.map (printed style node.kind)) := by
  intro child hchild hslot
  obtain ⟨⟨slot, child⟩, hentry, rfl⟩ := List.mem_map.1 hchild
  have hkind : child.kind.isComment = true := (h.isComment_kind hentry).trans hslot
  have htext : child.layout style (some node.kind) = [] := by
    obtain ⟨kind, atom, children⟩ := child
    cases kind with
    | blockComment => exact Style.comment_eq_nil hdropped _
    | inlineComment => exact Style.comment_eq_nil hdropped _
    | _ => cases hkind
  exact htext

/-- In a typed tree that isn't a comment, dropping the comments is the same as not having them. -/
theorem Typed.layout_uncommented {node : Node} (h : node.Typed) (hkind : node.kind.isComment = false)
    (pretty : Bool) (parent : Option Kind) :
    node.layout ⟨pretty, false⟩ parent = node.uncommented.layout ⟨pretty, true⟩ parent := by
  induction h generalizing parent with
  | @intro node fits hchildren ih =>
    obtain ⟨kind, atom, children⟩ := node
    have hlists : withoutComments (children.map (printed ⟨pretty, false⟩ kind)) =
        (uncommentedChildren children).map (printed ⟨pretty, true⟩ kind) := by
      rw [withoutComments, List.filter_map, uncommentedChildren_eq, List.map_map]
      refine List.map_congr_left fun entry hentry => ?_
      obtain ⟨hmem, hslot⟩ := List.mem_filter.1 hentry
      have hcomment : entry.2.kind.isComment = false := by
        rw [fits.isComment_kind hmem]
        simpa [printed] using hslot
      simp only [Function.comp_apply, printed, kind_uncommented, ih entry hmem hcomment]
    rw [uncommented, layout, layout, layoutChildren_eq, layoutChildren_eq, ← hlists]
    exact writeNode_silent (fits.silentComments rfl) parent hkind atom

/-! ### The length of a text -/

end Node

section Sizes

variable (style : Style) (m n : Nat) (children : List Printed)

theorem Part.write_size (part : Part) (layout : Layout) :
    part.write style (.size m) children layout = part.write style (.size n) children layout := by
  cases part with
  | gap g => cases g <;> rfl
  | _ => rfl

theorem Item.write_size (item : Item) (layout : Layout) :
    item.write style (.size m) children layout = item.write style (.size n) children layout := by
  cases item with
  | part p => exact p.write_size style m n children layout
  | group guard presence parts =>
    have hholds : presence.holds (.size m) children = presence.holds (.size n) children := by
      cases presence <;> rfl
    simp only [write, hholds, Part.write_size style m n children]

/-- The length of the text that a node was read from isn't written. -/
theorem writeNode_bare (parent : Option Kind) (kind : Kind) (atom : Atom) :
    writeNode style parent kind atom.bare children = writeNode style parent kind atom children := by
  cases atom with
  | size n =>
    have hrule (p : Production) : p.rule.write style (.size 0) children =
        p.rule.write style (.size n) children := by
      simp only [Rule.write, writeItems, Item.write_size style 0 n children]
    have hproduction (kind : Kind) (slots : List Slot) :
        Production.forNode parent kind (.size 0) slots = .forNode parent kind (.size n) slots := by
      cases kind <;> rfl
    cases kind with
    | name => rfl
    | blockComment => rfl
    | inlineComment => rfl
    | document => rfl
    | _ =>
      simp only [writeNode, Atom.bare, hproduction]
      exact hrule _
  | _ => rfl

end Sizes

namespace Node

/-- A bare node is printed as the node without comments. -/
theorem layout_bare (node : Node) (style : Style) (parent : Option Kind) :
    node.bare.layout style parent = node.uncommented.layout style parent := by
  induction node using Node.induction generalizing parent with
  | step kind atom children ih =>
    have hlists : (bareChildren children).map (printed style kind) =
        (uncommentedChildren children).map (printed style kind) := by
      rw [bareChildren_eq, uncommentedChildren_eq, List.map_map, List.map_map]
      refine List.map_congr_left fun entry hentry => ?_
      simp only [Function.comp_apply, printed, kind_bare, kind_uncommented,
        ih entry (List.mem_filter.1 hentry).1]
    rw [bare, uncommented, layout, layout, layoutChildren_eq, layoutChildren_eq, hlists]
    exact writeNode_bare style _ parent kind atom

/-- A typed node that isn't a comment is printed without its comments as the node that never had any is
printed with all of them. So nodes that differ in their comments only, and in the length of the text
that they were read from, are printed as the same text without comments. -/
theorem print_uncommented {node : Node} (h : node.Typed) (hkind : node.kind.isComment = false)
    (pretty : Bool) :
    node.print ⟨pretty, false⟩ = node.uncommented.print ⟨pretty, true⟩ ∧
      ∀ other : Node, other.Typed → other.bare = node.bare →
        other.print ⟨pretty, false⟩ = node.print ⟨pretty, false⟩ := by
  have hprint {node : Node} (h : node.Typed) (hkind : node.kind.isComment = false) :
      node.print ⟨pretty, false⟩ = node.uncommented.print ⟨pretty, true⟩ :=
    congrArg String.ofList (h.layout_uncommented hkind pretty none)
  have hbare (node : Node) : node.bare.print ⟨pretty, true⟩ = node.uncommented.print ⟨pretty, true⟩ :=
    congrArg String.ofList (node.layout_bare _ none)
  refine ⟨hprint h hkind, fun other hother hsame => ?_⟩
  have hkind' : other.kind.isComment = false := by
    rw [← kind_bare, hsame, kind_bare, hkind]
  rw [hprint hother hkind', hprint h hkind, ← hbare, ← hbare, hsame]

/-- A query with comments inside its brackets and behind it, read from fourteen bytes. -/
def queryWithComments : Node :=
  mk .document (.size 14) [
    (.definitions, mk .operationDefinition (.operation .query) [
      (.selectionSet, mk .selectionSet .none [
        (.commentsOpeningBracket, ofComment ⟨true, "1"⟩),
        (.selections, mk .field .none [(.comments, ofComment ⟨true, "2"⟩), (.name, ofName "a")]),
        (.commentsClosingBracket, ofComment ⟨false, "3"⟩)])]),
    (.comments, ofComment ⟨false, "4"⟩)]

/-- The query is printed without comments as the bare query is. -/
theorem print_uncommented_query :
    queryWithComments.Typed ∧ queryWithComments.kind.isComment = false ∧
      queryWithComments.print ⟨true, false⟩ = queryWithComments.uncommented.print ⟨true, true⟩ ∧
      queryWithComments.bare.Typed ∧ queryWithComments.bare.bare = queryWithComments.bare ∧
      queryWithComments.bare.print ⟨true, false⟩ = queryWithComments.print ⟨true, false⟩ := by
  have htyped : queryWithComments.Typed := by decide
  have hbare : queryWithComments.bare.Typed := by decide
  have hsame : queryWithComments.bare.bare = queryWithComments.bare := by decide
  obtain ⟨hprint, hother⟩ := print_uncommented htyped rfl true
  exact ⟨htyped, rfl, hprint, hbare, hsame, hother _ hbare hsame⟩

end Node

end GraphQLTree
