import GraphQLTree.Grammar.Rule
import GraphQLTree.Text.Blank
import GraphQLTree.Text.BlockString
import GraphQLTree.Text.Glue
import GraphQLTree.Text.Quoted
import GraphQLTree.Tree.Query

/-!
# Printing

A node's text is made of the texts of its children, going through the items of its rule and gluing
part after part. A **style** says whether the text is pretty and whether comments are kept; neither
changes which other tokens are written.

Comments go on lines of their own before the node, with one exception: the last comment of a node
stays behind it when it is an inline comment and the node ends in a token of its own, so that
reading the text attaches every comment to the same node again.
-/

namespace GraphQLTree

/-- How nodes are printed. -/
structure Style where
  /-- Whether there are spaces around punctuators and empty lines between definitions. -/
  pretty : Bool
  /-- Whether comments are kept. -/
  comments : Bool
  deriving DecidableEq

namespace Style

/-- Neither spaces nor comments. -/
def compact : Style := ⟨false, false⟩

/-- The four styles: compact and pretty without comments, then both with comments. -/
def all : List Style := [⟨false, false⟩, ⟨true, false⟩, ⟨false, true⟩, ⟨true, true⟩]

/-- A space in pretty text only. -/
def space (style : Style) : List Char :=
  if style.pretty then [' '] else []

/-- What stands between the items of a list. -/
def separator (style : Style) : List Char :=
  ',' :: style.space

/-- A comment, which takes the rest of its line. -/
def comment (style : Style) (text : List Char) : List Char :=
  if !style.comments then []
  else if style.pretty then '#' :: ' ' :: Text.trimStart text ++ ['\n']
  else '#' :: text ++ ['\n']

/-- What stands between two definitions. -/
def definitionBreak (style : Style) : List Char :=
  if style.pretty then ['\n', '\n'] else ['\n']

end Style

/-- A child with its text. -/
structure Printed where
  slot : Slot
  kind : Kind
  text : List Char
  deriving DecidableEq

/-- The children in a slot. -/
def printedIn (slot : Slot) (children : List Printed) : List Printed :=
  children.filter fun child => child.slot = slot

/-- The text of the first child in a slot, which is empty if there is none. -/
def printedText (slot : Slot) (children : List Printed) : List Char :=
  match printedIn slot children with
  | child :: _ => child.text
  | [] => []

/-- Puts comments around a text. The last one stays behind the text if it is an inline comment and
`own` says that the text ends in a token that it can belong to. -/
def attachComments (style : Style) (comments : List Printed) (body : List Char) (own : Bool) :
    List Char :=
  let trailing := own && (comments.getLast?.any fun child => child.kind = .inlineComment)
  let leading := (if trailing then comments.dropLast else comments).flatMap Printed.text
  let behind := if trailing then (comments.getLast?.map Printed.text).getD [] else []
  let before := if leading.isEmpty then [] else '\n' :: leading
  let after := if behind.isEmpty then [] else style.space ++ behind
  Text.glue before body ++ after

/-! ### Parts and items -/

/-- A text in the making, and whether it ends in an own token of the node. -/
structure Layout where
  text : List Char
  own : Bool

namespace Layout

/-- Before anything is written. -/
def empty : Layout := ⟨[], false⟩

/-- Writes an own token. -/
def token (layout : Layout) (text : List Char) : Layout :=
  ⟨Text.glue layout.text text, true⟩

/-- Writes the text of a child. -/
def child (layout : Layout) (text : List Char) : Layout :=
  ⟨Text.glue layout.text text, false⟩

/-- Writes a space, which doesn't count as a token. -/
def space (layout : Layout) (text : List Char) : Layout :=
  { layout with text := Text.glue layout.text text }

/-- Writes an item of a list: a separator stands before it unless the text ends its line. -/
def listItem (separator : List Char) (layout : Layout) (item : Printed) : Layout :=
  (if Text.endsLine layout.text then layout else layout.space separator).child item.text

/-- Writes the items of a list, with spaces around them if it is padded. -/
def list (style : Style) (padded : Bool) (layout : Layout) : List Printed → Layout
  | [] => layout
  | item :: items =>
    let padding := if style.pretty && padded then [' '] else []
    (items.foldl (listItem style.separator) ((layout.space padding).child item.text)).space padding

/-- Writes children with a delimiter between them. -/
def delimited (delimiter : List Char) (layout : Layout) : List Printed → Layout
  | [] => { layout with own := false }
  | item :: items =>
    items.foldl (fun layout item => (layout.space delimiter).child item.text)
      (layout.child item.text)

end Layout

/-- An atom as it is written. Atoms that no token gives are not written. -/
def Atom.write : Atom → List Char
  | text t => t.toList
  | string value false => Text.quote value.toList
  | string value true => Text.blockQuote value.toList
  | boolean true => Keyword.trueValue.text.toList
  | boolean false => Keyword.falseValue.text.toList
  | operation o => o.text.toList
  | repeatable _ => Keyword.repeatable.text.toList
  | executable location => location.text.toList
  | typeSystem location => location.text.toList
  | size _ => []
  | none => []

section Rules

variable (style : Style) (atom : Atom) (children : List Printed)

/-- Writes one part of a node. -/
def Part.write (layout : Layout) : Part → Layout
  | gap .soft => layout.space style.space
  | gap .hard => layout.space [' ']
  | punct p => layout.token p.text.toList
  | bracket p slot =>
    layout.token (attachComments style (printedIn slot children) p.text.toList true)
  | keyword k => layout.token k.text.toList
  | name slot _ => layout.token (printedText slot children)
  | spacedName slot => layout.token (' ' :: printedText slot children)
  | literal _ => layout.token atom.write
  | child slot _ => layout.child (printedText slot children)
  | opened _ slot _ => layout.child (printedText slot children)
  | listed slot _ close _ => layout.list style (close = .braceClose) (printedIn slot children)
  | repeated slot _ _ =>
    (printedIn slot children).foldl
      (fun layout item => (layout.space style.space).child item.text) layout
  | separated slot _ delimiter =>
    layout.delimited (style.space ++ delimiter.text.toList ++ style.space)
      (printedIn slot children)
  | juxtaposed slot => layout.delimited style.separator (printedIn slot children)
  | demand _ => layout

/-- Whether the node has what a group is for. -/
def Presence.holds : Presence → Bool
  | filled slot => !(printedIn slot children).isEmpty
  | repeatable => atom = .repeatable true

/-- Writes an item: a group is left out if the node doesn't have what it is for. -/
def Item.write (layout : Layout) : Item → Layout
  | part p => p.write style atom children layout
  | group _ presence parts =>
    if presence.holds atom children then
      parts.foldl (fun layout part => part.write style atom children layout) layout
    else layout

/-- Writes items one after the other. -/
def writeItems (items : List Item) : Layout :=
  items.foldl (fun layout item => item.write style atom children layout) .empty

end Rules

/-! ### Nodes -/

/-- Whether a part keeps the node's comments in its place. -/
def Part.keepsComments : Part → Bool
  | bracket _ .comments => true
  | _ => false

/-- Whether an item keeps the node's comments in its place. -/
def Item.keepsComments : Item → Bool
  | part p => p.keepsComments
  | group _ _ parts => parts.any Part.keepsComments

/-- The text of a node written by a rule: its items with its comments around them, and its
description before that. -/
def Rule.write (rule : Rule) (style : Style) (atom : Atom) (children : List Printed) : List Char :=
  let layout := writeItems style atom children rule.items
  let comments :=
    if rule.items.any Item.keepsComments then [] else printedIn .comments children
  let body := attachComments style comments layout.text layout.own
  if rule.described && !(printedIn .description children).isEmpty then
    let description := printedText .description children
    let lineBreak := if style.pretty then ['\n'] else []
    Text.glueAll [description, lineBreak, body]
  else body

/-- The production that a node is written by. Sets that can be written in two ways are written in
the one that fits what they stand in. -/
def Production.forNode (parent : Option Kind) (kind : Kind) (atom : Atom) (slots : List Slot) :
    Production :=
  match kind with
  | .operationDefinition => if isShorthand atom slots then shorthand else .of kind
  | .namedTypeSet =>
    match parent with
    | some (.objectType _) => interfaces
    | some (.interfaceType _) => interfaces
    | some (.unionType _) => unionMembers
    | _ => .of kind
  | .inputValueDefinitionSet =>
    match parent with
    | some .fieldDefinition => argumentDefinitions
    | some .directiveDefinition => argumentDefinitions
    | _ => .of kind
  | _ => .of kind

/-- The text of a document: its definitions on lines of their own, and its comments at the end. -/
def writeDocument (style : Style) (children : List Printed) : List Char :=
  let definitions := (printedIn .definitions children).map Printed.text
  let body := match definitions with
    | [] => []
    | first :: rest =>
      rest.foldl (fun out text => Text.glue (Text.glue out style.definitionBreak) text)
        (Text.glue [] first)
  let comments := (printedIn .comments children).flatMap Printed.text
  (Text.glue body ['\n'] ++ comments).dropWhile (· == '\n')

/-- The text of a node from the texts of its children. -/
def writeNode (style : Style) (parent : Option Kind) (kind : Kind) (atom : Atom)
    (children : List Printed) : List Char :=
  match kind with
  | .name => atom.write
  | .blockComment => style.comment (atom.write)
  | .inlineComment => style.comment (atom.write)
  | .document => writeDocument style children
  | _ =>
    (Production.forNode parent kind atom (children.map Printed.slot)).rule.write style atom children

namespace Node

mutual

/-- The text of a node that stands in a parent. -/
def layout (style : Style) (parent : Option Kind) : Node → List Char
  | mk kind atom children => writeNode style parent kind atom (layoutChildren style kind children)

/-- The texts of the children of a node of a kind. -/
def layoutChildren (style : Style) (parent : Kind) : List (Slot × Node) → List Printed
  | [] => []
  | (slot, child) :: rest =>
    ⟨slot, child.kind, child.layout style (some parent)⟩ :: layoutChildren style parent rest

end

/-- The text of a node on its own. -/
def print (style : Style) (node : Node) : String :=
  String.ofList (node.layout style none)

end Node

end GraphQLTree
