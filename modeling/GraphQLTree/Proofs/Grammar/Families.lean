import GraphQLTree.Grammar.Printer
import GraphQLTree.Proofs.Grammar.Productions
import GraphQLTree.Proofs.Tree.Families

/-!
# Rules of the two families

The rules of the two families say the same but for the goals of children, which are of the family too
(`Rule.ofKind_widen`). A printer doesn't look at goals, so a node is written as it is after it is widened
(`Node.print_widen`).
-/

namespace GraphQLTree

/-! ### Rules -/

/-- The goal of the general family for a goal of the constant one, and any other goal itself. -/
def Goal.widen : Goal → Goal
  | value _ => value .general
  | production (.of k) => kind k.widen
  | goal => goal

/-- A part with goals of the general family. -/
def Part.widen : Part → Part
  | child slot goal => child slot goal.widen
  | opened p slot goal => opened p slot goal.widen
  | listed slot goal close allowEmpty => listed slot goal.widen close allowEmpty
  | repeated slot goal start => repeated slot goal.widen start
  | separated slot goal delimiter => separated slot goal.widen delimiter
  | part => part

/-- An item with goals of the general family. -/
def Item.widen : Item → Item
  | part p => part p.widen
  | group guard presence parts => group guard presence (parts.map Part.widen)

/-- A rule with goals of the general family. -/
def Rule.widen (rule : Rule) : Rule :=
  { rule with items := rule.items.map Item.widen }

/-- The rules of the two kinds of a family differ in the goals of children only. -/
theorem Rule.ofKind_widen (kind : Kind) :
    (Rule.ofKind kind.widen).widen = (Rule.ofKind kind).widen := by
  have hcheck := List.all_eq_true.1 (show Kind.all.all (fun kind =>
    (Rule.ofKind kind.widen).widen = (Rule.ofKind kind).widen) = true by decide)
  exact of_decide_eq_true (hcheck kind kind.mem_all)

/-- The goals of a family: values and what they are made of, and what holds values. -/
def Goal.isOf (family : Family) : Goal → Bool
  | value f => f = family
  | production (.of (.objectField f)) => f = family
  | production (.of (.argument f)) => f = family
  | production (.of (.argumentSet f)) => f = family
  | production (.of (.directive f)) => f = family
  | _ => false

/-- The parts that nodes of a family are made of unless they are variables. None of them is a dollar
sign. -/
def Part.isOf (family : Family) : Part → Bool
  | gap _ => true
  | punct p => p ≠ .dollar
  | bracket p _ => p ≠ .dollar
  | keyword _ => true
  | name _ _ => true
  | literal _ => true
  | child _ goal => goal.isOf family
  | listed _ goal _ _ => goal.isOf family
  | _ => false

/-- The items that nodes of a family are made of unless they are variables. -/
def Item.isOf (family : Family) : Item → Bool
  | part p => p.isOf family
  | group _ _ parts => parts.all (Part.isOf family)

/-- The productions of a family, and those of values that are of no family. -/
def Production.isOf (family : Family) (p : Production) : Bool :=
  p ∈ Goal.productions.values family || Goal.isOf family (.production p)

/-! ### Printing -/

/-- A child of the general family with its text. -/
def Printed.widen (child : Printed) : Printed :=
  { child with kind := child.kind.widen }

theorem printedIn_widen (slot : Slot) (children : List Printed) :
    printedIn slot (children.map Printed.widen) = (printedIn slot children).map Printed.widen := by
  rw [printedIn, List.filter_map]
  rfl

theorem printedText_widen (slot : Slot) (children : List Printed) :
    printedText slot (children.map Printed.widen) = printedText slot children := by
  rw [printedText, printedText, printedIn_widen]
  cases printedIn slot children <;> rfl

theorem map_text_widen (children : List Printed) :
    (children.map Printed.widen).map Printed.text = children.map Printed.text := by
  rw [List.map_map]
  rfl

theorem flatMap_text_widen (children : List Printed) :
    (children.map Printed.widen).flatMap Printed.text = children.flatMap Printed.text := by
  rw [List.flatMap_map]
  rfl

theorem attachComments_widen (style : Style) (comments : List Printed) (body : List Char)
    (own : Bool) : attachComments style (comments.map Printed.widen) body own =
      attachComments style comments body own := by
  have hinline : ((comments.map Printed.widen).getLast?.any fun child =>
      child.kind = .inlineComment) =
        comments.getLast?.any fun child => child.kind = .inlineComment := by
    rw [List.getLast?_map, Option.any_map]
    simp [Printed.widen, Kind.widen_eq_inlineComment]
  have hleading : (if (own && comments.getLast?.any fun child => child.kind = .inlineComment) = true
        then (comments.map Printed.widen).dropLast else comments.map Printed.widen) =
      (if (own && comments.getLast?.any fun child => child.kind = .inlineComment) = true
        then comments.dropLast else comments).map Printed.widen := by
    split <;> simp only [List.map_dropLast]
  have hbehind : (comments.map Printed.widen).getLast?.map Printed.text =
      comments.getLast?.map Printed.text := by
    rw [List.getLast?_map, Option.map_map]
    rfl
  simp only [attachComments, hinline, hleading, hbehind, flatMap_text_widen]

theorem Layout.list_widen (style : Style) (padded : Bool) (layout : Layout)
    (items : List Printed) :
    layout.list style padded (items.map Printed.widen) = layout.list style padded items := by
  cases items with
  | nil => rfl
  | cons item items =>
    simp only [List.map_cons, Layout.list, List.foldl_map]
    rfl

theorem Layout.delimited_widen (delimiter : List Char) (layout : Layout) (items : List Printed) :
    layout.delimited delimiter (items.map Printed.widen) = layout.delimited delimiter items := by
  cases items with
  | nil => rfl
  | cons item items =>
    simp only [List.map_cons, Layout.delimited, List.foldl_map]
    rfl

section Write

variable (style : Style) (atom : Atom) (children : List Printed)

/-- A part is written whatever goals it has and whatever families the children are of. -/
theorem Part.write_widen (layout : Layout) (part : Part) :
    part.widen.write style atom (children.map Printed.widen) layout =
      part.write style atom children layout := by
  cases part with
  | gap g => cases g <;> rfl
  | punct p => rfl
  | keyword k => rfl
  | literal l => rfl
  | demand p => rfl
  | bracket p slot =>
    simp only [widen, write, printedIn_widen, attachComments_widen]
  | name slot rule => simp only [widen, write, printedText_widen]
  | spacedName slot => simp only [widen, write, printedText_widen]
  | child slot goal => simp only [widen, write, printedText_widen]
  | opened p slot goal => simp only [widen, write, printedText_widen]
  | listed slot goal close allowEmpty =>
    simp only [widen, write, printedIn_widen, Layout.list_widen]
  | repeated slot goal start =>
    simp only [widen, write, printedIn_widen, List.foldl_map]
    rfl
  | separated slot goal delimiter =>
    simp only [widen, write, printedIn_widen, Layout.delimited_widen]
  | juxtaposed slot => simp only [widen, write, printedIn_widen, Layout.delimited_widen]

theorem Presence.holds_widen (presence : Presence) :
    presence.holds atom (children.map Printed.widen) = presence.holds atom children := by
  cases presence with
  | filled slot => simp only [holds, printedIn_widen, List.isEmpty_map]
  | repeatable => rfl

theorem Item.write_widen (layout : Layout) (item : Item) :
    item.widen.write style atom (children.map Printed.widen) layout =
      item.write style atom children layout := by
  cases item with
  | part p => exact p.write_widen style atom children layout
  | group guard presence parts =>
    simp only [widen, write, Presence.holds_widen, List.foldl_map, Part.write_widen]

theorem Item.keepsComments_widen (item : Item) : item.widen.keepsComments = item.keepsComments := by
  have hpart (part : Part) : part.widen.keepsComments = part.keepsComments := by
    cases part <;> rfl
  cases item with
  | part p => exact hpart p
  | group guard presence parts => simp [widen, keepsComments, Function.comp_def, hpart]

/-- A rule writes the same whatever goals it has and whatever families the children are of. -/
theorem Rule.write_widen (rule : Rule) :
    rule.widen.write style atom (children.map Printed.widen) = rule.write style atom children := by
  have hcomments (kept : Bool) :
      (if kept then [] else (printedIn .comments children).map Printed.widen) =
        (if kept then [] else printedIn .comments children).map Printed.widen := by
    cases kept <;> rfl
  have hkept : (rule.items.map Item.widen).any Item.keepsComments =
      rule.items.any Item.keepsComments := by
    simp only [List.any_map, Function.comp_def, Item.keepsComments_widen]
  simp only [write, widen, writeItems, List.foldl_map, Item.write_widen, hkept, printedIn_widen,
    printedText_widen, hcomments, attachComments_widen, List.isEmpty_map]

theorem writeDocument_widen :
    writeDocument style (children.map Printed.widen) = writeDocument style children := by
  simp only [writeDocument, printedIn_widen, map_text_widen, flatMap_text_widen]

/-- A node and its parent are written by the same rule in both families, but for the goals. -/
theorem Production.rule_forNode_widen (parent : Option Kind) (kind : Kind) (slots : List Slot) :
    (forNode (parent.map Kind.widen) kind.widen atom slots).rule.widen =
      (forNode parent kind atom slots).rule.widen := by
  cases kind with
  | namedTypeSet => rcases parent with _ | parent <;> first | rfl | (cases parent <;> rfl)
  | inputValueDefinitionSet => rcases parent with _ | parent <;> first | rfl | (cases parent <;> rfl)
  | operationDefinition => rfl
  | _ => exact Rule.ofKind_widen _

theorem writeNode_widen (parent : Option Kind) (kind : Kind) :
    writeNode style (parent.map Kind.widen) kind.widen atom (children.map Printed.widen) =
      writeNode style parent kind atom children := by
  have hslots : (children.map Printed.widen).map Printed.slot = children.map Printed.slot := by
    rw [List.map_map]
    rfl
  have htwice : (children.map Printed.widen).map Printed.widen = children.map Printed.widen := by
    rw [List.map_map]
    exact List.map_congr_left fun child _ => by simp [Printed.widen, Kind.widen_widen]
  have hrule : (Production.forNode (parent.map Kind.widen) kind.widen atom
        ((children.map Printed.widen).map Printed.slot)).rule.write style atom
          (children.map Printed.widen) =
      (Production.forNode parent kind atom (children.map Printed.slot)).rule.write style atom
        children := by
    rw [← Rule.write_widen, htwice, Production.rule_forNode_widen, hslots, Rule.write_widen]
  cases kind with
  | name => rfl
  | blockComment => rfl
  | inlineComment => rfl
  | document => exact writeDocument_widen style children
  | _ => exact hrule

end Write

namespace Node

mutual

/-- A widened node has the text of the node in any parent. -/
theorem layout_widen (style : Style) (parent : Option Kind) : (node : Node) →
    node.widen.layout style (parent.map Kind.widen) = node.layout style parent
  | mk kind atom children => by
    rw [widen_mk, layout, layout, layoutChildren_widen style kind children, writeNode_widen]

theorem layoutChildren_widen (style : Style) (parent : Kind) : (children : List (Slot × Node)) →
    layoutChildren style parent.widen (widenChildren children) =
      (layoutChildren style parent children).map Printed.widen
  | [] => rfl
  | (slot, child) :: rest => by
    rw [widenChildren, layoutChildren, layoutChildren, layoutChildren_widen style parent rest,
      ← Option.map_some, layout_widen style (some parent) child, kind_widen]
    rfl

end

/-- A widened node is printed as the node is. -/
theorem print_widen (style : Style) (node : Node) : node.widen.print style = node.print style :=
  congrArg String.ofList (node.layout_widen style none)

end Node

end GraphQLTree
