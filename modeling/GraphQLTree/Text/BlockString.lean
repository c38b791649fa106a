import GraphQLTree.Text.Lines

/-!
# Block strings

A block string stands between two groups of three quotes. Its raw text is everything in between,
where a backslash before three quotes keeps them from ending it; its value is the raw text
without the indentation that all lines but the first share and without the blank lines around it.
`blockQuote` writes a value so that reading gives the value back whenever it is the value of some
raw text.
-/

namespace GraphQLTree.Text

/-- Reads the rest of a block string after its opening quotes: its raw text and how many
characters it takes, the closing quotes included. -/
def readBlock : List Char → Option (List Char × Nat)
  | [] => none
  | '\\' :: '"' :: '"' :: '"' :: cs =>
    (readBlock cs).map fun (raw, size) => ('"' :: '"' :: '"' :: raw, size + 4)
  | '"' :: '"' :: '"' :: _ => some ([], 3)
  | c :: cs => (readBlock cs).map fun (raw, size) => (c :: raw, size + 1)

/-! ### The value of raw text -/

/-- Whether a character counts as indentation. -/
def isIndent (c : Char) : Bool :=
  c == ' ' || c == '\t'

/-- How many characters of indentation a line starts with. -/
def indentation (line : List Char) : Nat :=
  (line.takeWhile isIndent).length

/-- What one pass over the lines of a raw text finds: the least indentation of the lines after the
first that are not blank, and the numbers of the first and the last line that is not blank. -/
structure BlockExtent where
  margin : Option Nat
  first : Option Nat
  last : Nat
  deriving DecidableEq

namespace BlockExtent

/-- Before any line has been seen. -/
def empty : BlockExtent := ⟨none, none, 0⟩

/-- Takes one line with its number into account. -/
def measure (extent : BlockExtent) (line : List Char × Nat) : BlockExtent :=
  let indent := indentation line.1
  if indent = line.1.length then extent
  else
    { margin :=
        if line.2 = 0 then extent.margin
        else some (match extent.margin with
          | some margin => min margin indent
          | none => indent)
      first := some (extent.first.getD line.2)
      last := line.2 }

/-- A line with its number, without the shared indentation. Only lines after the first have it,
and a line that is all indentation may have less. -/
def cut (extent : BlockExtent) (line : List Char × Nat) : List Char :=
  if line.2 = 0 then line.1
  else match extent.margin with
    | some margin => line.1.drop margin
    | none => []

end BlockExtent

/-- Joins lines with line feeds. -/
def joinLines (lines : List (List Char)) : List Char :=
  ['\n'].intercalate lines

/-- The value of a block string's raw text. -/
def dedent (raw : List Char) : List Char :=
  let lines := (splitLines raw).zipIdx
  let extent := lines.foldl BlockExtent.measure .empty
  match extent.first with
  | none => []
  | some first => joinLines (((lines.take (extent.last + 1)).drop first).map extent.cut)

/-! ### Writing -/

/-- Puts a backslash before every three quotes in a row. -/
def escapeBlock : List Char → List Char
  | '"' :: '"' :: '"' :: cs => '\\' :: '"' :: '"' :: '"' :: escapeBlock cs
  | c :: cs => c :: escapeBlock cs
  | [] => []

/-- Whether the first line of a value has to stand on a line of its own: when every later line is
empty or indented, the indentation would otherwise be taken for a shared one. -/
def needsOwnLine (value : List Char) : Bool :=
  match (terminatedLines value).tail with
  | [] => false
  | later => later.all fun line => line.head?.all isIndent

/-- Whether the last character of a value would run into the closing quotes. -/
def endsOpen (escaped : List Char) : Bool :=
  match escaped.getLast? with
  | some '"' => true
  | some '\\' => true
  | _ => false

/-- The three quotes around a block string. -/
def blockQuotes : List Char := ['"', '"', '"']

/-- A value as a block string. -/
def blockQuote (value : List Char) : List Char :=
  let escaped := escapeBlock value
  let before := if needsOwnLine value then ['\n'] else []
  let after := if needsOwnLine value || endsOpen escaped then ['\n'] else []
  blockQuotes ++ before ++ escaped ++ after ++ blockQuotes

end GraphQLTree.Text
