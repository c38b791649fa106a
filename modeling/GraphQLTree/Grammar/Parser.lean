import GraphQLTree.Grammar.Reader
import GraphQLTree.Grammar.Target

/-!
# Parsing

A text is parsed as a whole document or as a single goal. A goal takes what it can from the start
of the text and leaves the rest alone; a document goes on to the end of the text and has one
definition at least. A failure becomes a diagnostic at the lexeme it is in front of: the problem is
that lexeme's token, or its characters when they form no token.
-/

namespace GraphQLTree

namespace TokenStream

/-- Reads a goal from the start of a stream. -/
def readGoal (stream : TokenStream) (goal : Goal) : Outcome Node :=
  goal.read (Goal.depthFor stream.lexemes) stream.lexemes

/-- Reads a document, which takes the whole stream. -/
def readDocument (stream : TokenStream) : Outcome Node :=
  let depth := Goal.depthFor stream.lexemes
  (readUntil (Goal.definition.read depth) List.isEmpty depth stream.lexemes).andThen
    fun definitions rest =>
      if definitions.isEmpty then .failed ⟨.kind .document, some .definition⟩ rest
      else .done (.mk .document (.size stream.size)
        (definitions.map (.definitions, ·) ++ Node.ofComments .comments stream.trailing)) rest

/-- Reads a target from the start of a stream. -/
def read (stream : TokenStream) : Target → Outcome Node
  | .document => stream.readDocument
  | .goal goal => stream.readGoal goal

end TokenStream

/-- The diagnostic for a failure in front of some lexemes of a text. -/
def Failure.diagnostic (failure : Failure) (cs : List Char) (lexemes : List Lexeme) :
    Diagnostic :=
  match lexemes with
  | [] =>
    .ofCut (.unexpected none failure.construct failure.expected)
      (.ofSpan cs ⟨Text.utf8Length cs, Text.utf8Length cs⟩)
  | lexeme :: _ =>
    let cut := Cut.ofSpan cs lexeme.span
    if lexeme.token = .invalid then .invalidCharacters cut
    else .ofCut (.unexpected (some lexeme.token) failure.construct failure.expected) cut

/-- Parses a text as a target. -/
def Target.parse (target : Target) (text : String) : Except Diagnostic Node :=
  match (TokenStream.ofText text).read target with
  | .done node _ => .ok node
  | .failed failure rest => .error (failure.diagnostic text.toList rest)
  | .exhausted => .error (.placeless .tooDeep)

/-- Parses a text as a document. -/
def parseDocument (text : String) : Except Diagnostic Node :=
  Target.document.parse text

/-- The tokens of located scraps of a text up to the first that is invalid, and the diagnostic for
that one. -/
def validTokens (cs : List Char) : List (Scrap × Span) → List Token × Option Diagnostic
  | [] => ([], none)
  | (scrap, span) :: rest =>
    if scrap.token = .invalid then ([], some (.invalidCharacters (.ofSpan cs span)))
    else
      let (tokens, diagnostic) := validTokens cs rest
      (scrap.token :: tokens, diagnostic)

/-- The tokens of a text, comments among them, up to the first characters that form none, and the
diagnostic for those. -/
def tokenize (text : String) : List Token × Option Diagnostic :=
  validTokens text.toList (Scrap.located text.toList)

end GraphQLTree
