import GraphQLTree.Json.Basic
import GraphQLTree.Tree.Schema

/-!
# Constant values as JSON

A constant value denotes a JSON value: null is null, lists are arrays, objects are objects in which
the last field of a name counts, and strings and enum values are strings. Numbers keep their value
where JSON's numbers can: an integer that doesn't fit 64 bits stays text, as does a number whose
text breaks off in an exponent mark, and a number out of the binary64 range has no value at all.
-/

namespace GraphQLTree.Json

/-- Whether an integer fits 64 bits with a sign. -/
def fits64 (n : Int) : Bool :=
  decide (-0x8000000000000000 ≤ n) && decide (n < 0x8000000000000000)

/-- The JSON value of an integer's text. -/
def ofIntText (text : String) : Json :=
  match Binary64.signed? text.toList with
  | some n => if fits64 n then integer n else string text
  | none => string text

/-- The JSON value of the text of a number with a fraction or an exponent. -/
def ofFloatText (text : String) : Json :=
  match Binary64.read? text.toList with
  | some (.finite value) => number value
  | some .infinite => null
  | none => string text

mutual

/-- The JSON value that a constant value denotes. -/
def ofConstant : Node → Json
  | .mk kind atom children =>
    match kind, atom with
    | .intValue, .text text => ofIntText text
    | .floatValue, .text text => ofFloatText text
    | .enumValue, .text text => string text
    | .stringValue, .string value _ => string value
    | .booleanValue, .boolean value => boolean value
    | .listValue _, _ => array (ofItems children)
    | .objectValue _, _ => ofMembers (ofFields children)
    | _, _ => null

/-- The JSON values of the items of a list. -/
def ofItems : List (Slot × Node) → List Json
  | [] => []
  | (.values, child) :: rest => ofConstant child :: ofItems rest
  | _ :: rest => ofItems rest

/-- The names and JSON values of the fields of an object. -/
def ofFields : List (Slot × Node) → List (String × Json)
  | [] => []
  | (.fields, .mk kind atom children) :: rest =>
    (((Node.mk kind atom children).nameIn? .name).getD "", ofFieldValue children) :: ofFields rest
  | _ :: rest => ofFields rest

/-- The JSON value of the value of an object's field. -/
def ofFieldValue : List (Slot × Node) → Json
  | [] => null
  | (.value, child) :: _ => ofConstant child
  | _ :: rest => ofFieldValue rest

end

end GraphQLTree.Json
