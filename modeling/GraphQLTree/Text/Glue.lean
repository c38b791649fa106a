/-!
# Gluing printed text

Printed text is put together from parts that may have to start on a new line. Such a part begins
with a line break, and `glue` adds that break only when the text before does not already end in
one, dropping the spaces around it. Gluing is associative (`glue_assoc`, in `Text.Glue.Lemmas`), so
how the parts of a node are grouped does not show in its text.
-/

namespace GraphQLTree.Text

/-- Whether a text ends in a line feed. -/
def endsLine (cs : List Char) : Bool :=
  cs.getLast? == some '\n'

/-- The text without the spaces it starts with. -/
def dropSpaces (cs : List Char) : List Char :=
  cs.dropWhile (· == ' ')

/-- The text without the spaces it ends with. -/
def trimSpaces (cs : List Char) : List Char :=
  (dropSpaces cs.reverse).reverse

/-- The text without the line feed it starts with, if it does. -/
def dropLineFeed : List Char → List Char
  | '\n' :: cs => cs
  | cs => cs

/-- What is left of a text behind a line break: its first spaces go, and so does one line feed
after them. -/
def afterBreak (text : List Char) : List Char :=
  dropLineFeed (dropSpaces text)

/-- Appends printed text, merging the line breaks where the two meet. -/
def glue (out text : List Char) : List Char :=
  if endsLine out then out ++ afterBreak text
  else if text.head? == some '\n' then trimSpaces out ++ text
  else out ++ text

/-- Glues texts from left to right. -/
def glueAll (texts : List (List Char)) : List Char :=
  texts.foldl glue []

end GraphQLTree.Text
