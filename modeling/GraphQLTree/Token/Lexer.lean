import GraphQLTree.Text.Parts
import GraphQLTree.Token.Scan

/-!
# Lexing in a window

A lexer reads the tokens of a text one by one from a window, which is on the characters of a token after it
was read. Strings are read by callbacks, which start with the window on the opening quotes and move it
themselves. A callback that can't read its string leaves the window where it was moved to so far, and
reading goes on from there. The end of the text can be read any number of times.
-/

namespace GraphQLTree.Lexer

open Text

/-- Reads the token of a string or block string, given what its callback reads and the token that its
values make. -/
def readValue? (read : Option (Option (List Char) × Window)) (token : String → Token) :
    Option (Option Token × Window) := do
  match ← read with
  | (some value, after) => return (some (token (String.ofList value)), after)
  | (none, after) => return (some .invalid, after)

/-- Reads the token that the remainder starts with, or nothing at the end of the text. -/
def token? (hex : HexReader) (window : Window) : Option (Option Token × Window) := do
  match ← window.remainder? with
  | [] => return (none, window.next 0)
  | '"' :: '"' :: '"' :: _ => readValue? (readBlockString? (window.next 3)) .blockString
  | '"' :: _ => readValue? (readString? hex (window.next 1)) .string
  | c :: cs =>
    let (token, size) := Token.scan c cs
    return (some token, window.next (utf8Length ((c :: cs).take size)))

/-- Reads the next token behind ignored characters, or nothing at the end of the text. -/
def next? (hex : HexReader) (window : Window) : Option (Option Token × Window) := do
  let rest ← window.remainder?
  token? hex (window.next (utf8Length (rest.takeWhile Token.isIgnored)))

/-- What a number of calls read, each with the place that the window is on behind it. -/
def answers? (hex : HexReader) : Nat → Window → Option (List (Option Token × Span))
  | 0, _ => some []
  | n + 1, window => do
    let (token, after) ← next? hex window
    return (token, ⟨after.start, after.stop⟩) :: (← answers? hex n after)

end GraphQLTree.Lexer
