import GraphQLTree.Diagnostic.Snippet
import GraphQLTree.Tree.Kind
import GraphQLTree.Tree.Path

/-!
# Diagnostics

A **problem** is the cause of a failure, and `Problem.message` has the wording of all of them. A
**diagnostic** is a problem with the place in the text where it shows, if it has one.
-/

namespace GraphQLTree

/-- The stages of work that can fail. -/
inductive Category where
  /-- Characters form no token. -/
  | lexical
  /-- Tokens don't fit the grammar. -/
  | syntactic
  /-- A walk over a tree was stopped, or a node doesn't fit its place. -/
  | traversal
  deriving DecidableEq

namespace Category

/-- A category's identifier. -/
def identifier : Category → String
  | lexical => "Lexical"
  | syntactic => "Syntax"
  | traversal => "Traversal"

/-- Every category once. -/
def all : List Category := [lexical, syntactic, traversal]

/-- The category with an identifier. -/
def ofIdentifier? (identifier : String) : Option Category :=
  all.find? fun category => category.identifier == identifier

end Category

/-- What could have stood in place of a token. -/
inductive Expectation where
  | punct (p : Punctuator)
  | keyword (keyword : Keyword)
  | name
  | constantValue
  | fragmentName
  | operationType
  | enumValueName
  | directiveLocation
  | typeSystemDefinition
  | typeSystemExtension
  | definition
  deriving DecidableEq

namespace Expectation

/-- What a message calls it: words for sorts of things, quotes around what is written so. -/
def text : Expectation → String
  | punct p => "\"" ++ p.text ++ "\""
  | keyword k => "\"" ++ k.text ++ "\""
  | name => "Name"
  | constantValue => "constant value"
  | fragmentName => "fragment name"
  | operationType => "operation type"
  | enumValueName => "enum value name"
  | directiveLocation => "directive location"
  | typeSystemDefinition => "type system definition"
  | typeSystemExtension => "type system extension"
  | definition => "definition"

end Expectation

/-- The causes of failures. -/
inductive Problem where
  /-- Characters that form no token. -/
  | characters (text : String)
  /-- A token, or the end of the text, that the construct being parsed can't go on with. -/
  | unexpected (found : Option Token) (construct : Construct) (expected : Option Expectation)
  /-- A piece of a path that is neither a slot nor an index. -/
  | invalidSegment (text : String)
  /-- A node that its parent has no place for in a slot. -/
  | misplaced (child : Kind) (slot : Slot) (parent : Kind)
  /-- A field without the child it must have. -/
  | missing (slot : Slot) (parent : Kind)
  /-- A tree whose root can't stand for the one it came from. -/
  | irreplaceable (old new : Kind)
  /-- Nesting beyond the depth that the work was given. -/
  | tooDeep
  /-- A failure of the caller's own. -/
  | other (category : Category) (message : String)
  deriving DecidableEq

namespace Problem

/-- The stage of work that a problem belongs to. -/
def category : Problem → Category
  | characters _ => .lexical
  | unexpected _ _ _ => .syntactic
  | other category _ => category
  | _ => .traversal

/-- What a message calls the token it didn't expect. -/
def foundText : Option Token → String
  | none => "EOF"
  | some token => token.title ++ " \"" ++ token.value ++ "\""

/-- The wording of a problem. -/
def message : Problem → String
  | characters text => "Unexpected character sequence \"" ++ text ++ "\""
  | unexpected found construct expected =>
    "Unexpected " ++ foundText found ++ " while parsing " ++ construct.title ++
      (match expected with
        | some expectation => ", expected " ++ expectation.text
        | none => "")
  | invalidSegment text => "Invalid path segment " ++ text
  | misplaced child slot parent =>
    child.title ++ " can't be placed in the " ++ slot.text ++ " field of " ++ parent.title
  | missing slot parent => "Missing " ++ slot.text ++ " field of " ++ parent.title
  | irreplaceable old new => old.title ++ " can't be replaced with " ++ new.title
  | tooDeep => "Nesting is too deep"
  | other _ message => message

end Problem

/-- A problem and where it shows. -/
structure Diagnostic where
  problem : Problem
  position : Option Position
  snippet : Option String
  deriving DecidableEq

namespace Diagnostic

/-- A problem that has no place in a text. -/
def placeless (problem : Problem) : Diagnostic :=
  ⟨problem, none, none⟩

/-- A problem at a cut of a text. -/
def ofCut (problem : Problem) (cut : Cut) : Diagnostic :=
  ⟨problem, some cut.position, some (String.ofList cut.snippet)⟩

/-- The longest text that the problem of invalid characters quotes. -/
def quoteLimit : Nat := 20

/-- Characters that form no token: the problem quotes the text from the span on, up to the end of
its line. -/
def invalidCharacters (cut : Cut) : Diagnostic :=
  let line := (cut.inside ++ cut.after).takeWhile fun c => c != '\n' && c != '\r'
  ofCut (.characters (String.ofList (line.take quoteLimit))) cut

/-- The stage of work that failed. -/
def category (diagnostic : Diagnostic) : Category :=
  diagnostic.problem.category

/-- The wording of the problem. -/
def message (diagnostic : Diagnostic) : String :=
  diagnostic.problem.message

/-- The diagnostic in one line: its category and message. -/
def short (diagnostic : Diagnostic) : String :=
  diagnostic.category.identifier ++ " Error: " ++ diagnostic.message

/-- The diagnostic with its snippet below, if it has one. -/
def render (diagnostic : Diagnostic) : String :=
  match diagnostic.snippet with
  | some snippet => diagnostic.short ++ "\n" ++ snippet
  | none => diagnostic.short

/-- The diagnostic set apart by line breaks. -/
def framed (diagnostic : Diagnostic) : String :=
  "\n" ++ diagnostic.render ++ "\n"

end Diagnostic

end GraphQLTree
