import GraphQLTree.Text.Hex

/-!
# Quoted strings

A quoted string is a sequence of **units** between two quotes. A unit is a character other than a
quote, a backslash or a line terminator; a simple escape; a fixed escape of four hexadecimal
digits, where two escapes in a row may name the halves of a surrogate pair; or a braced escape
with any number of digits. `readQuoted` reads the units after an opening quote, and `quote`
writes a text so that reading gives it back.
-/

namespace GraphQLTree.Text

/-- The meaning of the character after the backslash of a simple escape. -/
def simpleEscape? : Char → Option Char
  | '"' => some '"'
  | '\\' => some '\\'
  | '/' => some '/'
  | 'b' => some '\x08'
  | 'f' => some '\x0c'
  | 'n' => some '\n'
  | 'r' => some '\r'
  | 't' => some '\t'
  | _ => none

/-- The number that the next four characters denote, if they are hexadecimal digits. -/
def fourDigits? : List Char → Option Nat
  | a :: b :: c :: d :: _ =>
    if [a, b, c, d].all isHexDigit then some (hexNumber [a, b, c, d]) else none
  | _ => none

/-- The second half of a surrogate pair, written as a fixed escape at the start of the text. -/
def lowSurrogate? : List Char → Option Nat
  | '\\' :: 'u' :: cs => (fourDigits? cs).filter fun n => 0xDC00 ≤ n && n ≤ 0xDFFF
  | _ => none

/-- The character that a pair of surrogates stands for. -/
def combineSurrogates (high low : Nat) : Nat :=
  0x10000 + (high - 0xD800) * 0x400 + (low - 0xDC00)

/-- The meaning of the fixed escape whose digits the text starts with, and the length of the
whole escape, which for a surrogate pair is that of both its halves. -/
def fixedEscape? (cs : List Char) : Option (Char × Nat) := do
  let code ← fourDigits? cs
  if 0xD800 ≤ code ∧ code ≤ 0xDBFF then
    let low ← lowSurrogate? (cs.drop 4)
    (scalar? (combineSurrogates code low)).map (·, 12)
  else
    (scalar? code).map (·, 6)

/-- The meaning of the braced escape whose digits the text starts with, and the length of the
whole escape. -/
def bracedEscape? (cs : List Char) : Option (Char × Nat) :=
  let digits := cs.takeWhile isHexDigit
  if digits.isEmpty || (cs.drop digits.length).head? != some '\x7d' then none
  else (scalar? (hexNumber digits)).map (·, digits.length + 4)

/-- Whether a character stands for itself in a quoted string. -/
def isPlain (c : Char) : Bool :=
  c != '"' && c != '\\' && c != '\n' && c != '\r'

/-- The meaning of the unit that the text starts with, and the unit's length. -/
def unit? : List Char → Option (Char × Nat)
  | '\\' :: 'u' :: '\x7b' :: cs => bracedEscape? cs
  | '\\' :: 'u' :: cs => fixedEscape? cs
  | '\\' :: c :: _ => (simpleEscape? c).map (·, 2)
  | c :: _ => if isPlain c then some (c, 1) else none
  | [] => none

/-- Reads at most `n` units and a closing quote. -/
def readUnits : Nat → List Char → Option (List Char × Nat)
  | _, '"' :: _ => some ([], 1)
  | 0, _ => none
  | n + 1, cs => do
    let (c, size) ← unit? cs
    let (value, rest) ← readUnits n (cs.drop size)
    some (c :: value, size + rest)

/-- Reads the rest of a quoted string after its opening quote: its value and how many characters
it takes, the closing quote included. Each unit has at least one character, so the text's length
bounds their number. -/
def readQuoted (cs : List Char) : Option (List Char × Nat) :=
  readUnits cs.length cs

/-- How many characters a string that can't be read takes, the opening quote included: those
before its first backslash, or the quote alone when no backslash is met before the string ends or
its line breaks off. -/
def brokenLength (cs : List Char) : Nat :=
  let plain := cs.takeWhile isPlain
  if (cs.drop plain.length).head? == some '\\' then 1 + plain.length else 1

/-- A character as it is written between quotes. -/
def escapeChar (c : Char) : List Char :=
  match c with
  | '"' => ['\\', '"']
  | '\\' => ['\\', '\\']
  | '\x08' => ['\\', 'b']
  | '\x0c' => ['\\', 'f']
  | '\n' => ['\\', 'n']
  | '\r' => ['\\', 'r']
  | '\t' => ['\\', 't']
  | _ =>
    if c.toNat < 0x20 then
      ['\\', 'u', '0', '0', hexChar (c.toNat / 16), hexChar (c.toNat % 16)]
    else [c]

/-- A text as a quoted string. -/
def quote (cs : List Char) : List Char :=
  '"' :: cs.flatMap escapeChar ++ ['"']

end GraphQLTree.Text
