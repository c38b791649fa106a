import GraphQLTree.Text.BlockString
import GraphQLTree.Text.Offset

/-!
# Block strings in bytes

The value of a block string's raw text as it is computed from bytes. Lines are sliced out of the text
while its bytes are looked at, one pass over the lines finds everything that there is to know of them, and
what is left of each line is sliced out of it. Until the pass has seen a line with a margin, the margin is
the largest offset that there is.
-/

namespace GraphQLTree.Text

/-- The bytes of a text. -/
def utf8 (cs : List Char) : List UInt8 :=
  cs.flatMap String.utf8EncodeChar

/-- Slices lines out of a text. The line at hand starts at an offset, and the bytes from another offset on
haven't been looked at. -/
def sliceLines? (cs : List Char) : Nat → Nat → List UInt8 → Option (List (List Char))
  | start, _, [] => do
    let line ← dropAt? start cs
    return [line]
  | start, index, 0x0D :: 0x0A :: bytes => do
    let line ← slice? start index cs
    return line :: (← sliceLines? cs (index + 2) (index + 2) bytes)
  | start, index, byte :: bytes =>
    if byte = 0x0A ∨ byte = 0x0D then do
      let line ← slice? start index cs
      return line :: (← sliceLines? cs (index + 1) (index + 1) bytes)
    else sliceLines? cs start (index + 1) bytes

/-- What a pass over lines has found: the margin, and the numbers of the first and the last line that is
not blank. -/
structure Pass where
  margin : Nat
  first : Option Nat
  last : Nat
  deriving DecidableEq

namespace Pass

/-- Takes one line with its number into account. -/
def measure (pass : Pass) (line : List Char × Nat) : Pass :=
  let indent := utf8Length line.1 - utf8Length (line.1.dropWhile isIndent)
  if indent = utf8Length line.1 then pass
  else
    { margin := if line.2 ≠ 0 ∧ indent < pass.margin then indent else pass.margin
      first := some (pass.first.getD line.2)
      last := line.2 }

/-- Puts one line with its number behind some output, and a line break in front of it unless it is the
first line that is put. -/
def put? (pass : Pass) (first : Nat) (output : List Char) (line : List Char × Nat) :
    Option (List Char) :=
  let output := if first < line.2 then output ++ ['\n'] else output
  if line.2 = 0 then some (output ++ line.1)
  else if pass.margin < utf8Length line.1 then (dropAt? pass.margin line.1).map (output ++ ·)
  else some output

end Pass

/-- The value of a block string's raw text, when no offset is larger than a limit. -/
def dedent? (limit : Nat) (raw : List Char) : Option (List Char) := do
  let lines ← sliceLines? raw 0 0 (utf8 raw)
  let pass := lines.zipIdx.foldl Pass.measure ⟨limit, none, 0⟩
  match pass.first with
  | none => return []
  | some first => ((lines.zipIdx.take (pass.last + 1)).drop first).foldlM (pass.put? first) []

end GraphQLTree.Text
