import GraphQLTree.Token.Basic

/-!
# Numbers

A number is an integer part, an optional fraction and an optional exponent, and must not run into
a digit, a dot or a name. The scanner finds the three parts one after the other and then looks at
the character that follows: one that a number must not run into makes the whole, with that
character, invalid. An exponent mark whose sign has no digit after it is the exception: the mark
is taken into the number's text and the sign is left over.
-/

namespace GraphQLTree.Token

/-- Whether a character starts a name. -/
def isNameStart (c : Char) : Bool :=
  c == '_' || ('a' ≤ c && c ≤ 'z') || ('A' ≤ c && c ≤ 'Z')

/-- Whether a character is a decimal digit. -/
def isDecimal (c : Char) : Bool :=
  '0' ≤ c && c ≤ '9'

/-- Whether a character carries on a name. -/
def isNamePart (c : Char) : Bool :=
  isNameStart c || isDecimal c

/-- How many digits a text starts with. -/
def countDigits (cs : List Char) : Nat :=
  (cs.takeWhile isDecimal).length

/-- The length of the sign that a text starts with, when a sign may only be a minus. -/
def minusLength (cs : List Char) : Nat :=
  if cs.head? == some '-' then 1 else 0

/-- The length of the sign that a text starts with. -/
def signLength (cs : List Char) : Nat :=
  if cs.head? == some '-' || cs.head? == some '+' then 1 else 0

/-- The length of the fraction that a text starts with: a dot and its digits, or nothing. -/
def fractionLength : List Char → Nat
  | '.' :: cs => if countDigits cs = 0 then 0 else 1 + countDigits cs
  | _ => 0

/-- Whether a character marks an exponent. -/
def isExponentMark (c : Char) : Bool :=
  c == 'e' || c == 'E'

/-- The length of the exponent that a text starts with: a mark, a sign and its digits, or
nothing. -/
def exponentLength : List Char → Nat
  | c :: cs =>
    let digits := countDigits (cs.drop (signLength cs))
    if isExponentMark c && digits != 0 then 1 + signLength cs + digits else 0
  | [] => 0

/-- Whether a text starts with an exponent mark and a sign, which is asked only where no exponent
stands. -/
def hasBareExponent : List Char → Bool
  | c :: cs => isExponentMark c && signLength cs != 0
  | [] => false

/-- Whether a number must not be followed by a text. -/
def clashes : List Char → Bool
  | c :: _ => c == '.' || isNameStart c
  | [] => false

/-- Scans the number that a text starts with, which is one with a minus or a digit, and gives its
length. -/
def scanNumber (cs : List Char) : Token × Nat :=
  let minus := minusLength cs
  let digits := countDigits (cs.drop minus)
  let integer := minus + digits
  if digits = 0 then (.invalid, 1)
  else if (cs.drop minus).head? == some '0' && digits != 1 then (.invalid, integer)
  else
    let fraction := fractionLength (cs.drop integer)
    let body := integer + fraction
    let exponent := exponentLength (cs.drop body)
    let size := body + exponent
    let number (size : Nat) : Token × Nat :=
      let text := String.ofList (cs.take size)
      (if fraction + exponent = 0 then .int text else .float text, size)
    if exponent = 0 && hasBareExponent (cs.drop body) then number (size + 1)
    else if clashes (cs.drop size) then (.invalid, size + 1)
    else number size

end GraphQLTree.Token
