import GraphQLTree.Diagnostic.Snippet
import GraphQLTree.Text.Offset

/-!
# Reports by offsets

How the position and the snippet of a span are found when there are only offsets to go by. Line feeds are
searched for backwards and forwards from the ends of the span, and the text is cut at the offsets that the
searches give. Nothing comes of cutting a text where it can't be cut, and of subtracting a number from a
smaller one.
-/

namespace GraphQLTree

namespace Text

/-- The offset of the first line feed. -/
def firstLineFeed? : List Char → Option Nat
  | [] => none
  | c :: cs => if c = '\n' then some 0 else (firstLineFeed? cs).map (c.utf8Size + ·)

/-- The offset of the last line feed. -/
def lastLineFeed? : List Char → Option Nat
  | [] => none
  | c :: cs =>
    match lastLineFeed? cs with
    | some offset => some (c.utf8Size + offset)
    | none => if c = '\n' then some 0 else none

/-- The offset behind the last line feed, or else the start of the text. -/
def lastLineStart (cs : List Char) : Nat :=
  (lastLineFeed? cs).elim 0 (· + 1)

end Text

/-- The difference of two numbers, if it is one. -/
def difference? (m n : Nat) : Option Nat :=
  if n ≤ m then some (m - n) else none

namespace Span

/-- Where a span starts in a text. -/
def position? (span : Span) (cs : List Char) : Option Position := do
  let before ← Text.slice? 0 span.start cs
  let indent ←
    match Text.lastLineFeed? before with
    | some offset => Text.dropAt? (offset + 1) before
    | none => some before
  return ⟨before.count '\n' + 1, indent.length + 1⟩

/-- Where the line starts that is before the span's first line, or that line if it is the first one. -/
def leadStart? (span : Span) (cs : List Char) : Option Nat := do
  let before ← Text.slice? 0 span.start cs
  match Text.lastLineFeed? before with
  | some offset =>
    let earlier ← Text.slice? 0 offset cs
    return Text.lastLineStart earlier
  | none => return 0

/-- Puts a numbered line behind some output, and a line break in front of it unless it is the first one. -/
def putLine? (width first : Nat) (output : List Char) (line : List Char × Nat) : Option (List Char) := do
  let number := Nat.toDigits 10 (first + line.2)
  let spaces ← difference? width number.length
  let output := if 0 < line.2 then output ++ ['\n'] else output
  return output ++ (List.replicate (spaces + 1) ' ' ++ number ++ [' ', '|', ' '] ++ line.1)

/-- Puts a line of carets under a span behind some output, unless the span goes over a line break. -/
def putCarets? (span : Span) (cs : List Char) (width : Nat) (output : List Char) :
    Option (List Char) := do
  let inside ← Text.slice? span.start span.stop cs
  if inside.contains '\n' then return output
  else
    let before ← Text.slice? 0 span.start cs
    let indent ← Text.slice? (Text.lastLineStart before) span.start cs
    return output ++ '\n' :: (List.replicate (width + 1) ' ' ++ [' ', '|', ' ']
      ++ List.replicate indent.length ' ' ++ List.replicate (max 1 inside.length) '^')

/-- The snippet of a span of a text. -/
def snippet? (span : Span) (cs : List Char) : Option (List Char) := do
  let start ← span.leadStart? cs
  let skipped ← Text.slice? 0 start cs
  let after ← Text.dropAt? span.stop cs
  let stop := (Text.firstLineFeed? after).elim (Text.utf8Length cs) (· + span.stop)
  let shown ← Text.slice? start stop cs
  let lines := Text.terminatedLines shown
  let first := skipped.count '\n' + 1
  let last ← difference? (first + max 1 lines.length) 1
  let width := (Nat.toDigits 10 last).length
  let output ← lines.zipIdx.foldlM (putLine? width first) []
  span.putCarets? cs width output

end Span

end GraphQLTree
