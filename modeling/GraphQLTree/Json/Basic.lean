import GraphQLTree.Json.Binary64

/-!
# JSON values

JSON values with whole numbers kept exactly and all other numbers as finite binary64 numbers.
Objects keep the order in which their members were first put in.
-/

namespace GraphQLTree

/-- A JSON value. -/
inductive Json where
  | null
  | boolean (value : Bool)
  | integer (value : Int)
  | number (value : Binary64)
  | string (value : String)
  | array (items : List Json)
  | object (members : List (String × Json))

namespace Json

/-- Puts a member into an object in place of one with its name, or at the end. -/
def insertMember (name : String) (value : Json) : List (String × Json) → List (String × Json)
  | [] => [(name, value)]
  | (name', value') :: rest =>
    if name' = name then (name, value) :: rest
    else (name', value') :: insertMember name value rest

/-- The object of some members, the last of which counts where names are equal. -/
def ofMembers (members : List (String × Json)) : Json :=
  object (members.foldl (fun object (name, value) => insertMember name value object) [])

end Json

end GraphQLTree
