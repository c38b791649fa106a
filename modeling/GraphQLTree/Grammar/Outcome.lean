import GraphQLTree.Diagnostic.Basic

/-!
# Outcomes of reading

Reading lexemes either is **done**, with a result and the lexemes that are left, or has **failed**
in front of a lexeme, or is **exhausted**: it ran out of the depth that it was given before it
could tell. More depth never changes an outcome that isn't exhausted.
-/

namespace GraphQLTree

/-- Why reading failed: what was being read, and what it needed. -/
structure Failure where
  construct : Construct
  expected : Option Expectation
  deriving DecidableEq

/-- What comes of reading lexemes. -/
inductive Outcome (α : Type) where
  | done (result : α) (rest : List Lexeme)
  | failed (failure : Failure) (rest : List Lexeme)
  | exhausted

namespace Outcome

variable {α β : Type}

/-- Goes on reading with the result and the lexemes that are left. -/
def andThen (outcome : Outcome α) (next : α → List Lexeme → Outcome β) : Outcome β :=
  match outcome with
  | done result rest => next result rest
  | failed failure rest => failed failure rest
  | exhausted => exhausted

/-- Changes the result. -/
def map (f : α → β) (outcome : Outcome α) : Outcome β :=
  outcome.andThen fun result rest => done (f result) rest

end Outcome

/-- The token of the first of some lexemes. -/
def firstToken (lexemes : List Lexeme) : Option Token :=
  lexemes.head?.map Lexeme.token

/-- Whether the first of some lexemes is of a sort. -/
def startsWith (accepts : Token → Bool) (lexemes : List Lexeme) : Bool :=
  (firstToken lexemes).any accepts

end GraphQLTree
