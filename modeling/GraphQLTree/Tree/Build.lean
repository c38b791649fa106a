import GraphQLTree.Tree.Schema

/-!
# Nodes made by hand

Nodes can be made without a text to read them from. Nothing about them is checked: names may be any
text and sets may be empty.
-/

namespace GraphQLTree.Node

/-- A node without children besides comments. -/
def leaf (kind : Kind) (atom : Atom) (comments : List Comment) : Node :=
  mk kind atom (ofComments .comments comments)

/-- A node that is a name with comments, such as a variable or a named type. -/
def named (kind : Kind) (name : String) (comments : List Comment) : Node :=
  mk kind .none (ofComments .comments comments ++ [(.name, ofName name)])

/-- A type that doesn't admit null. -/
def nonNull (type : Node) (comments : List Comment) : Node :=
  mk .nonNullType .none (ofComments .comments comments ++ [(.type, type)])

/-- A set of named types. -/
def namedTypes (names : List String) (comments : List Comment) : Node :=
  mk .namedTypeSet .none
    (ofComments .comments comments ++ names.map fun name => (.types, named .namedType name []))

/-- A document without definitions, read from no text. -/
def emptyDocument (comments : List Comment) : Node :=
  leaf .document (.size 0) comments

/-- A bracketed list without items. -/
def emptyList (kind : Kind) (opening closing : List Comment) : Node :=
  mk kind .none
    (ofComments .commentsOpeningBracket opening ++ ofComments .commentsClosingBracket closing)

end GraphQLTree.Node
