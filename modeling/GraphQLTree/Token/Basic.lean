/-!
# Tokens

A GraphQL text is made of **punctuators**, **names**, numbers, strings and comments. Names that the
grammar gives a meaning to are **keywords**; they are ordinary names everywhere else. What fits no
token is `Token.invalid`, which no construct accepts.
-/

namespace GraphQLTree

/-- The punctuators of the language. -/
inductive Punctuator where
  | exclamation
  | dollar
  | ampersand
  | parenOpen
  | parenClose
  | ellipsis
  | colon
  | equals
  | atSign
  | bracketOpen
  | bracketClose
  | braceOpen
  | pipe
  | braceClose
  deriving DecidableEq

namespace Punctuator

/-- A punctuator as it is written. -/
def text : Punctuator → String
  | exclamation => "!"
  | dollar => "$"
  | ampersand => "&"
  | parenOpen => "("
  | parenClose => ")"
  | ellipsis => "..."
  | colon => ":"
  | equals => "="
  | atSign => "@"
  | bracketOpen => "["
  | bracketClose => "]"
  | braceOpen => "\x7b"
  | pipe => "|"
  | braceClose => "\x7d"

/-- The punctuators of one character. -/
def ofChar? : Char → Option Punctuator
  | '!' => some exclamation
  | '$' => some dollar
  | '&' => some ampersand
  | '(' => some parenOpen
  | ')' => some parenClose
  | ':' => some colon
  | '=' => some equals
  | '@' => some atSign
  | '[' => some bracketOpen
  | ']' => some bracketClose
  | '\x7b' => some braceOpen
  | '|' => some pipe
  | '\x7d' => some braceClose
  | _ => none

end Punctuator

/-- The names with a meaning in the grammar. -/
inductive Keyword where
  | query
  | mutation
  | subscription
  | fragment
  | onType
  | trueValue
  | falseValue
  | nullValue
  | extend
  | schema
  | scalar
  | objectType
  | interfaceType
  | unionType
  | enumType
  | inputType
  | directive
  | repeatable
  | implements
  deriving DecidableEq

namespace Keyword

/-- A keyword as it is written. -/
def text : Keyword → String
  | query => "query"
  | mutation => "mutation"
  | subscription => "subscription"
  | fragment => "fragment"
  | onType => "on"
  | trueValue => "true"
  | falseValue => "false"
  | nullValue => "null"
  | extend => "extend"
  | schema => "schema"
  | scalar => "scalar"
  | objectType => "type"
  | interfaceType => "interface"
  | unionType => "union"
  | enumType => "enum"
  | inputType => "input"
  | directive => "directive"
  | repeatable => "repeatable"
  | implements => "implements"

/-- Every keyword once. -/
def all : List Keyword :=
  [query, mutation, subscription, fragment, onType, trueValue, falseValue, nullValue, extend,
    schema, scalar, objectType, interfaceType, unionType, enumType, inputType, directive,
    repeatable, implements]

/-- The keyword that a name spells, if it spells one. -/
def ofName? (name : String) : Option Keyword :=
  all.find? fun keyword => keyword.text == name

end Keyword

/-- A token. Numbers keep the text they are written as, strings hold their value, and comments
their text after the number sign. -/
inductive Token where
  | punct (p : Punctuator)
  | name (text : String)
  | int (text : String)
  | float (text : String)
  | string (value : String)
  | blockString (value : String)
  | comment (text : String)
  | invalid
  deriving DecidableEq

namespace Token

/-- The token's text: a string's value, a comment without its number sign, and nothing for
characters that form no token. -/
def value : Token → String
  | punct p => p.text
  | name text => text
  | int text => text
  | float text => text
  | string value => value
  | blockString value => value
  | comment text => text
  | invalid => ""

/-- What a message calls this sort of token. -/
def title : Token → String
  | punct _ => "token"
  | name _ => "Name"
  | int _ => "Int"
  | float _ => "Float"
  | string _ => "String"
  | blockString _ => "Block String"
  | comment _ => "Comment"
  | invalid => "token"

/-- The keyword that a token spells, if it is a name that spells one. -/
def keyword? : Token → Option Keyword
  | name text => Keyword.ofName? text
  | _ => none

end Token

end GraphQLTree
