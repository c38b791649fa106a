/-!
# Paths

A node holds its children in named **slots**, some of which are lists. A **path** leads from a node
to one of its descendants, slot by slot and index by index, and is written with dots between its
segments.
-/

namespace GraphQLTree

/-- The slots of nodes. -/
inductive Slot where
  | aliasName
  | arguments
  | comments
  | commentsClosingBracket
  | commentsOpeningBracket
  | defaultValue
  | definitions
  | description
  | directives
  | fields
  | interfaces
  | locations
  | name
  | operationTypes
  | selectionSet
  | selections
  | type
  | typeCondition
  | types
  | value
  | values
  | variableUse
  | variableDefinitions
  deriving DecidableEq

namespace Slot

/-- A slot's name in paths. -/
def text : Slot → String
  | aliasName => "alias"
  | arguments => "arguments"
  | comments => "comments"
  | commentsClosingBracket => "commentsClosingBracket"
  | commentsOpeningBracket => "commentsOpeningBracket"
  | defaultValue => "defaultValue"
  | definitions => "definitions"
  | description => "description"
  | directives => "directives"
  | fields => "fields"
  | interfaces => "interfaces"
  | locations => "locations"
  | name => "name"
  | operationTypes => "operationTypes"
  | selectionSet => "selectionSet"
  | selections => "selections"
  | type => "type"
  | typeCondition => "typeCondition"
  | types => "types"
  | value => "value"
  | values => "values"
  | variableUse => "variable"
  | variableDefinitions => "variableDefinitions"

/-- Every slot once. -/
def all : List Slot :=
  [aliasName, arguments, comments, commentsClosingBracket, commentsOpeningBracket, defaultValue,
    definitions, description, directives, fields, interfaces, locations, name, operationTypes,
    selectionSet, selections, type, typeCondition, types, value, values, variableUse,
    variableDefinitions]

/-- The slot with a name. -/
def ofText? (text : String) : Option Slot :=
  all.find? fun slot => slot.text == text

/-- Whether a slot holds comments. -/
def holdsComments : Slot → Bool
  | comments => true
  | commentsOpeningBracket => true
  | commentsClosingBracket => true
  | _ => false

end Slot

/-- One step of a path: a slot, or a place in a slot that is a list. -/
inductive Segment where
  | slot (slot : Slot)
  | index (n : Nat)
  deriving DecidableEq

namespace Segment

/-- A segment as it is written. -/
def text : Segment → String
  | slot s => s.text
  | index n => toString n

/-- The indices that can be written are those below this bound. -/
def indexLimit : Nat := UInt64.size

/-- The number that decimal digits denote. -/
def decimalNumber (cs : List Char) : Nat :=
  cs.foldl (fun n c => 10 * n + (c.toNat - '0'.toNat)) 0

/-- Reads an index: decimal digits, leading zeros included, with at most one plus before them. -/
def index? (cs : List Char) : Option Nat :=
  let digits := match cs with
    | '+' :: rest => rest
    | _ => cs
  if digits.isEmpty || !digits.all (fun c => '0' ≤ c && c ≤ '9') then none
  else if decimalNumber digits < indexLimit then some (decimalNumber digits)
  else none

/-- The segment that a text writes. -/
def ofText? (text : String) : Option Segment :=
  match index? text.toList with
  | some n => some (index n)
  | none => (Slot.ofText? text).map slot

end Segment

/-- The way from a node to one of its descendants. -/
abbrev Path := List Segment

namespace Path

/-- A path as it is written. -/
def text (path : Path) : String :=
  ".".intercalate (path.map Segment.text)

/-- The pieces of a text between its dots. -/
def pieces : List Char → List (List Char)
  | [] => [[]]
  | '.' :: cs => [] :: pieces cs
  | c :: cs =>
    match pieces cs with
    | [] => [[c]]
    | piece :: rest => (c :: piece) :: rest

/-- The path that a text writes, or the first of its pieces that is no segment. The empty text is
the empty path. -/
def ofText (text : String) : Except String Path :=
  if text.isEmpty then .ok []
  else (pieces text.toList).mapM fun piece =>
    match Segment.ofText? (String.ofList piece) with
    | some segment => .ok segment
    | none => .error (String.ofList piece)

end Path

end GraphQLTree
