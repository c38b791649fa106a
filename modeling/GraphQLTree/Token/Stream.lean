import GraphQLTree.Token.Scan

/-!
# Token streams

A **lexeme** is a token other than a comment together with the comments that belong to it: the
comments before it, which are its block comments, and the comment directly after it on the same
line, which is its inline comment. A `TokenStream` is the lexemes of a text and the comments after
the last of them; the end of the text can be taken any number of times, and has those comments
the first time only.
-/

namespace GraphQLTree

/-- A comment as it is attached to a token or a node. -/
structure Comment where
  /-- Whether the comment follows its token on the same line. -/
  inline : Bool
  text : String
  deriving DecidableEq

/-- A token with its place in the text and the comments that belong to it. -/
structure Lexeme where
  token : Token
  span : Span
  comments : List Comment
  deriving DecidableEq

/-- The rest of a text as lexemes. -/
structure TokenStream where
  lexemes : List Lexeme
  /-- The comments before the end of the text. -/
  trailing : List Comment
  /-- The length of the whole text in bytes. -/
  size : Nat
  deriving DecidableEq

namespace TokenStream

/-- Groups located scraps into lexemes, and gives the comments that are left over. The `pending`
comments are those since the last token. -/
def group (pending : List Comment) : List (Scrap × Span) → List Lexeme × List Comment
  | [] => ([], pending)
  | (scrap, span) :: rest =>
    let put (comments : List Comment) (later : List Lexeme × List Comment) :=
      (⟨scrap.token, span, comments⟩ :: later.1, later.2)
    match scrap.token, rest with
    | .comment text, rest => group (pending ++ [⟨false, text⟩]) rest
    | .invalid, rest => put pending (group [] rest)
    | _, (⟨gap, .comment text, written⟩, span') :: rest' =>
      if Text.hasLineBreak gap then
        put pending (group [] ((⟨gap, .comment text, written⟩, span') :: rest'))
      else put (pending ++ [⟨true, text⟩]) (group [] rest')
    | _, rest => put pending (group [] rest)

/-- The stream of a text. -/
def ofList (cs : List Char) : TokenStream :=
  let (lexemes, trailing) := group [] (Scrap.located cs)
  ⟨lexemes, trailing, Text.utf8Length cs⟩

/-- The stream of a text. -/
def ofText (text : String) : TokenStream :=
  ofList text.toList

/-! ### Taking lexemes -/

/-- What stands next in a stream. -/
inductive Head where
  | lexeme (lexeme : Lexeme)
  /-- The end of the text, at an offset and with the comments before it. -/
  | finish (offset : Nat) (comments : List Comment)
  deriving DecidableEq

/-- What stands next, without taking it. -/
def peek (stream : TokenStream) : Head :=
  match stream.lexemes with
  | lexeme :: _ => .lexeme lexeme
  | [] => .finish stream.size stream.trailing

/-- What stands next, and the stream after it. Nothing stands after the end but the end again,
without comments. -/
def take (stream : TokenStream) : Head × TokenStream :=
  match stream.lexemes with
  | lexeme :: rest => (.lexeme lexeme, { stream with lexemes := rest })
  | [] => (.finish stream.size stream.trailing, { stream with trailing := [] })

/-- Everything that is left up to the end of the text, and the stream after it. -/
def drain (stream : TokenStream) : List Head × TokenStream :=
  (stream.lexemes.map .lexeme ++ [.finish stream.size stream.trailing],
    { stream with lexemes := [], trailing := [] })

end TokenStream

end GraphQLTree
