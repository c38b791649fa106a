/-!
# Offsets in bytes

Positions in a text are counted in bytes of its UTF-8 encoding. `utf8Length` measures a text and
`splitBytes` cuts one at an offset.
-/

namespace GraphQLTree.Text

/-- The number of bytes of a text's UTF-8 encoding. -/
def utf8Length (cs : List Char) : Nat :=
  cs.foldr (fun c size => c.utf8Size + size) 0

@[simp] theorem utf8Length_nil : utf8Length [] = 0 :=
  rfl

theorem utf8Length_cons (c : Char) (cs : List Char) :
    utf8Length (c :: cs) = c.utf8Size + utf8Length cs :=
  rfl

theorem utf8Length_append (a b : List Char) :
    utf8Length (a ++ b) = utf8Length a + utf8Length b := by
  induction a with
  | nil => rw [List.nil_append, utf8Length_nil, Nat.zero_add]
  | cons c a ih => rw [List.cons_append, utf8Length_cons, ih, utf8Length_cons, Nat.add_assoc]

/-- Every character has a byte at least. -/
theorem length_le_utf8Length (cs : List Char) : cs.length ≤ utf8Length cs := by
  induction cs with
  | nil => exact Nat.le_refl 0
  | cons c cs ih =>
    rw [utf8Length_cons, List.length_cons, Nat.add_comm]
    exact Nat.add_le_add c.utf8Size_pos ih

/-- Cuts a text before the first character that starts at the offset or behind it. -/
def splitBytes : Nat → List Char → List Char × List Char
  | 0, cs => ([], cs)
  | _, [] => ([], [])
  | n + 1, c :: cs =>
    let (before, after) := splitBytes (n + 1 - c.utf8Size) cs
    (c :: before, after)

end GraphQLTree.Text
