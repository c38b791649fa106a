import GraphQLTree.Text.Lines
import GraphQLTree.Text.Utf8
import GraphQLTree.Token.Stream

/-!
# Pointing into a text

A span of a text is reported by the line and column it starts at, and by a **snippet**: the line
before the one it starts on and all lines it touches, each with its number, and a line of carets
under the span. Numbers are aligned to the right, so all gutters have one width. A span that goes
over a line break gets no carets.
-/

namespace GraphQLTree

/-- A line and a column, both counted from one. Columns count characters. -/
structure Position where
  line : Nat
  column : Nat
  deriving DecidableEq

/-- A text cut into what stands before a span, in it, and after it. -/
structure Cut where
  before : List Char
  inside : List Char
  after : List Char
  deriving DecidableEq

namespace Cut

/-- Cuts a text at a span. -/
def ofSpan (cs : List Char) (span : Span) : Cut :=
  let (before, rest) := Text.splitBytes span.start cs
  let (inside, after) := Text.splitBytes (span.stop - span.start) rest
  ⟨before, inside, after⟩

/-- The number of line feeds before the span. -/
def lineFeeds (cut : Cut) : Nat :=
  cut.before.count '\n'

/-- The text of the span's first line up to the span. -/
def indent (cut : Cut) : List Char :=
  Text.lastLine cut.before

/-- Where the span starts. -/
def position (cut : Cut) : Position :=
  ⟨cut.lineFeeds + 1, cut.indent.length + 1⟩

/-- The number of the first line of the snippet. -/
def firstLine (cut : Cut) : Nat :=
  max 1 cut.lineFeeds

/-- The line before the span's first line, with its line feed, and that line up to the span. -/
def lead (cut : Cut) : List Char :=
  match (cut.before.take (cut.before.length - cut.indent.length)).dropLast with
  | [] => cut.before
  | earlier => Text.lastLine earlier ++ '\n' :: cut.indent

/-- The text that the snippet shows. -/
def shown (cut : Cut) : List Char :=
  cut.lead ++ cut.inside ++ cut.after.takeWhile (· != '\n')

/-- The width of the snippet's line numbers. -/
def gutter (cut : Cut) : Nat :=
  let count := max 1 (Text.terminatedLines cut.shown).length
  (Nat.toDigits 10 (cut.firstLine + count - 1)).length

/-- One numbered line of a snippet. -/
def numberedLine (width number : Nat) (line : List Char) : List Char :=
  let digits := Nat.toDigits 10 number
  List.replicate (width - digits.length + 1) ' ' ++ digits ++ [' ', '|', ' '] ++ line

/-- The line of carets under the span, which has one at least. -/
def caretLine (cut : Cut) : List Char :=
  List.replicate (cut.gutter + 1) ' ' ++ [' ', '|', ' ']
    ++ List.replicate cut.indent.length ' ' ++ List.replicate (max 1 cut.inside.length) '^'

/-- The numbered lines of the snippet. -/
def numberedLines (cut : Cut) : List (List Char) :=
  (Text.terminatedLines cut.shown).zipIdx.map fun (line, n) =>
    numberedLine cut.gutter (cut.firstLine + n) line

/-- The snippet of a span. -/
def snippet (cut : Cut) : List Char :=
  let lines := ['\n'].intercalate cut.numberedLines
  if cut.inside.contains '\n' then lines else lines ++ '\n' :: cut.caretLine

end Cut

end GraphQLTree
