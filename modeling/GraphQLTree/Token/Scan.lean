import GraphQLTree.Text.BlockString
import GraphQLTree.Text.Quoted
import GraphQLTree.Text.Utf8
import GraphQLTree.Token.Number

/-!
# Scanning

A text is cut into **scraps**: each is one token with the text it was written as and the ignored
characters before it. Scraps tile the text, up to the ignored characters after the last of them.
Scanning never stops at characters that form no token but goes on behind them.
-/

namespace GraphQLTree

namespace Token

/-- Whether a character between tokens is ignored: white space, commas and byte order marks. -/
def isIgnored (c : Char) : Bool :=
  c == ' ' || c == '\t' || c == '\r' || c == '\n' || c == ',' || c == '\uFEFF'

/-- Whether a character belongs to a comment that has started before it. -/
def isCommentPart (c : Char) : Bool :=
  c != '\n' && c != '\r'

/-- Scans what follows a quote. An unreadable block string is as long as its opening quotes. -/
def scanString : List Char → Token × Nat
  | '"' :: '"' :: cs =>
    match Text.readBlock cs with
    | some (raw, size) => (.blockString (String.ofList (Text.dedent raw)), size + 3)
    | none => (.invalid, 3)
  | cs =>
    match Text.readQuoted cs with
    | some (value, size) => (.string (String.ofList value), size + 1)
    | none => (.invalid, Text.brokenLength cs)

/-- Scans the token that starts with a character, and gives its length, which is never zero. -/
def scan (c : Char) (cs : List Char) : Token × Nat :=
  match Punctuator.ofChar? c with
  | some p => (.punct p, 1)
  | none =>
    if c == '.' then
      if cs.take 2 == ['.', '.'] then (.punct .ellipsis, 3) else (.invalid, 1)
    else if c == '#' then
      let text := cs.takeWhile isCommentPart
      (.comment (String.ofList text), 1 + text.length)
    else if c == '"' then scanString cs
    else if c == '-' || isDecimal c then scanNumber (c :: cs)
    else if isNameStart c then
      let text := c :: cs.takeWhile isNamePart
      (.name (String.ofList text), text.length)
    else (.invalid, 1)

end Token

/-- A range of a text in bytes. -/
structure Span where
  start : Nat
  stop : Nat
  deriving DecidableEq

/-- A token with its text and the ignored characters before it. -/
structure Scrap where
  gap : List Char
  token : Token
  text : List Char
  deriving DecidableEq

namespace Scrap

/-- The first scrap of a text and what follows it, or nothing when all of it is ignored. -/
def next? (cs : List Char) : Option (Scrap × List Char) :=
  match cs.dropWhile Token.isIgnored with
  | [] => none
  | c :: rest =>
    let (token, size) := Token.scan c rest
    some (⟨cs.takeWhile Token.isIgnored, token, c :: rest.take (size - 1)⟩, rest.drop (size - 1))

/-- At most `n` scraps of a text. -/
def scanUpTo : Nat → List Char → List Scrap
  | 0, _ => []
  | n + 1, cs =>
    match next? cs with
    | none => []
    | some (scrap, rest) => scrap :: scanUpTo n rest

/-- The scraps of a text. Each takes at least one character, so the text's length bounds their
number. -/
def scanAll (cs : List Char) : List Scrap :=
  scanUpTo cs.length cs

/-- The span of a scrap whose gap starts at an offset. -/
def span (offset : Nat) (scrap : Scrap) : Span :=
  let start := offset + Text.utf8Length scrap.gap
  ⟨start, start + Text.utf8Length scrap.text⟩

/-- Scraps with their spans, when the gap of the first of them starts at an offset. -/
def locateFrom : Nat → List Scrap → List (Scrap × Span)
  | _, [] => []
  | offset, scrap :: rest =>
    (scrap, scrap.span offset) :: locateFrom (scrap.span offset).stop rest

/-- The scraps of a text with their spans. -/
def located (cs : List Char) : List (Scrap × Span) :=
  locateFrom 0 (scanAll cs)

end Scrap

end GraphQLTree
