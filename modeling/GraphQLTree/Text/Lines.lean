/-!
# Lines

Two ways to cut text into lines. `splitLines` is the one block strings use: a line ends at a line
feed, at a carriage return, or at the two together, and the text after the last terminator is a
line of its own even when it is empty. `terminatedLines` is the one reports and the layout of
block strings use: a line ends at a line feed only, a carriage return directly before it belongs
to the terminator, and nothing after the last terminator is no line.
-/

namespace GraphQLTree.Text

/-- Puts a character in front of the first line. -/
def consLine (c : Char) : List (List Char) → List (List Char)
  | [] => [[c]]
  | line :: lines => (c :: line) :: lines

/-- The lines of a text whose terminators are LF, CR LF and CR. -/
def splitLines : List Char → List (List Char)
  | [] => [[]]
  | '\r' :: '\n' :: cs => [] :: splitLines cs
  | '\n' :: cs => [] :: splitLines cs
  | '\r' :: cs => [] :: splitLines cs
  | c :: cs => consLine c (splitLines cs)

/-- The lines of a text whose terminators are LF and CR LF; an empty rest is not a line. -/
def terminatedLines : List Char → List (List Char)
  | [] => []
  | '\r' :: '\n' :: cs => [] :: terminatedLines cs
  | '\n' :: cs => [] :: terminatedLines cs
  | c :: cs => consLine c (terminatedLines cs)

/-- Whether a text holds a line terminator. -/
def hasLineBreak (cs : List Char) : Bool :=
  cs.any fun c => c == '\n' || c == '\r'

/-- The text after the last line feed, which is all of it when there is none. -/
def lastLine (cs : List Char) : List Char :=
  (cs.reverse.takeWhile (· != '\n')).reverse

end GraphQLTree.Text
