import GraphQLTree.Token.Number

/-!
# Binary64 numbers

A binary64 number is a sign, a biased exponent of eleven bits and a fraction of 52 bits. Decimal
text is rounded to the nearest of them in exact arithmetic, a tie going to the even fraction: the
value is scaled by a power of two so that its whole part has 53 bits, or fewer below the smallest
normal number, and rounded there once.
-/

namespace GraphQLTree

/-- A finite binary64 number: its sign and the bits after it. -/
structure Binary64 where
  negative : Bool
  magnitude : Nat
  deriving DecidableEq

namespace Binary64

/-- The 64 bits of a number. -/
def bits (x : Binary64) : Nat :=
  (if x.negative then 1 <<< 63 else 0) + x.magnitude

/-- The bits of infinity after its sign. -/
def infinity : Nat := 2047 <<< 52

/-- The whole number nearest to a quotient, a tie going to the even one. -/
def roundQuotient (num den : Nat) : Nat :=
  let quotient := num / den
  let twice := 2 * (num % den)
  if twice < den then quotient
  else if den < twice then quotient + 1
  else if quotient % 2 = 0 then quotient else quotient + 1

/-- The power of two whose scale has the whole part of a positive quotient fill 53 bits, as far as
the smallest numbers allow: the quotient is that scale times a number in `[2 ^ 52, 2 ^ 53)`. -/
def scale (num den : Nat) : Int :=
  let guess : Int := (Nat.log2 num : Int) - Nat.log2 den - 52
  let fits (e : Int) : Bool := decide (den <<< (e + 52).toNat ≤ num <<< (-(e + 52)).toNat)
  max (-1074) (if fits guess then guess else guess - 1)

/-- The bits after the sign of the number nearest to a positive quotient. They count the numbers
from zero on, so a fraction that rounds up to the next power of two carries into the exponent. -/
def nearest (num den : Nat) : Nat :=
  let e := scale num den
  let significand := roundQuotient (num <<< (-e).toNat) (den <<< e.toNat)
  if significand < 1 <<< 52 then significand
  else (e + 1075).toNat <<< 52 + (significand - 1 <<< 52)

/-- The bits after the sign of the number nearest to `digits * 10 ^ exponent`. Powers that are
surely out of range are not computed. -/
def ofDecimal (digits : Nat) (exponent : Int) : Nat :=
  let length : Int := (Nat.toDigits 10 digits).length
  if digits = 0 || length + exponent < -330 then 0
  else if 400 < length + exponent then infinity
  else nearest (digits * Nat.pow 10 exponent.toNat) (Nat.pow 10 (-exponent).toNat)

/-! ### Reading decimal text -/

/-- Decimal text taken apart. -/
structure Decimal where
  negative : Bool
  digits : Nat
  exponent : Int
  deriving DecidableEq

/-- The number that decimal digits denote. -/
def digitsValue (cs : List Char) : Nat :=
  cs.foldl (fun n c => 10 * n + (c.toNat - '0'.toNat)) 0

/-- A signed number of decimal digits, one at least. -/
def signed? (cs : List Char) : Option Int :=
  let digits := cs.drop (Token.signLength cs)
  if digits.isEmpty || !digits.all Token.isDecimal then none
  else if cs.head? = some '-' then some (-(digitsValue digits)) else some (digitsValue digits)

/-- The exponent after the digits of decimal text: a mark and a signed number, or nothing. -/
def exponent? : List Char → Option Int
  | [] => some 0
  | c :: cs => if Token.isExponentMark c then signed? cs else none

/-- Takes decimal text apart: a minus, digits, a fraction and an exponent, of which the digits must
be there. -/
def Decimal.read? (cs : List Char) : Option Decimal := do
  let rest := cs.drop (Token.minusLength cs)
  let whole := rest.takeWhile Token.isDecimal
  let rest := rest.drop whole.length
  let fraction := (rest.take (Token.fractionLength rest)).drop 1
  let exponent ← exponent? (rest.drop (Token.fractionLength rest))
  if whole.isEmpty then none
  else some ⟨cs.head? = some '-', digitsValue (whole ++ fraction), exponent - fraction.length⟩

/-- What a decimal text denotes. -/
inductive Reading where
  | finite (value : Binary64)
  | infinite
  deriving DecidableEq

/-- The number nearest to what a decimal text denotes, if it is decimal text. -/
def read? (cs : List Char) : Option Reading :=
  (Decimal.read? cs).map fun decimal =>
    let magnitude := ofDecimal decimal.digits decimal.exponent
    if magnitude < infinity then .finite ⟨decimal.negative, magnitude⟩ else .infinite

end Binary64

end GraphQLTree
