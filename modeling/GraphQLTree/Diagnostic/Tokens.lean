import GraphQLTree.Diagnostic.Basic
import GraphQLTree.Token.Lexer

/-!
# Reading tokens up to an error

The tokens of a text are read one by one, comments among them. The first characters that form no token are
reported where the lexer's window is, and nothing is read behind them.
-/

namespace GraphQLTree

/-- The cut of a text that a window is on. -/
def Cut.ofWindow? (window : Text.Window) : Option Cut := do
  let before ← Text.slice? 0 window.start window.text
  let inside ← window.slice?
  let after ← window.remainder?
  return ⟨before, inside, after⟩

/-- A reader of the tokens of a text: the window of its lexer, and whether it has come to the end or to an
error. -/
structure TokenReader where
  window : Text.Window
  finished : Bool
  deriving DecidableEq

namespace TokenReader

/-- The reader of all tokens of a text. -/
def ofList (cs : List Char) : TokenReader :=
  ⟨.ofList cs, false⟩

/-- Reads a token or reports an error, once, and reads nothing behind it. -/
def next? (hex : Text.HexReader) (reader : TokenReader) :
    Option (Option (Except Diagnostic Token) × TokenReader) := do
  if reader.finished then return (none, reader)
  match ← Lexer.next? hex reader.window with
  | (some .invalid, after) =>
    let cut ← Cut.ofWindow? after
    return (some (.error (.invalidCharacters cut)), ⟨after, true⟩)
  | (some token, after) => return (some (.ok token), ⟨after, false⟩)
  | (none, after) => return (none, ⟨after, true⟩)

/-- What a number of calls read. -/
def answers? (hex : Text.HexReader) :
    Nat → TokenReader → Option (List (Option (Except Diagnostic Token)))
  | 0, _ => some []
  | n + 1, reader => do
    let (item, after) ← reader.next? hex
    return item :: (← answers? hex n after)

end TokenReader

end GraphQLTree
