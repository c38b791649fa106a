import GraphQLTree.Traversal.Children

/-!
# Taking outputs by position

How outputs are taken from a vector of entries, and any number of them one call after the other. What is
taken is found by its position and removed there, which moves the entries behind it forward: the next one
then stands at that position. A position behind the last entry is one that nothing can be taken from, and
always a mistake.
-/

namespace GraphQLTree.Children

variable {α : Type}

/-- The entry at a position, and the entries without it. -/
def removeAt? (position : Nat) (entries : List (Slot × α)) :
    Option ((Slot × α) × List (Slot × α)) :=
  entries[position]?.map (·, entries.eraseIdx position)

theorem length_lt_of_removeAt? {position : Nat} {entries left : List (Slot × α)} {entry : Slot × α}
    (h : removeAt? position entries = some (entry, left)) : left.length < entries.length := by
  obtain ⟨first, hfirst, he⟩ := Option.map_eq_some_iff.1 h
  obtain ⟨-, rfl⟩ := Prod.mk.inj he
  have hlt := (List.getElem?_eq_some_iff.1 hfirst).1
  rw [List.length_eraseIdx_of_lt hlt]
  omega

/-- Takes the output at the first position that a segment leads to. -/
def takeAt? (children : Children α) (segment : Segment) : Option (Option α × Children α) :=
  match children.entries.findIdx? (isUnder segment) with
  | none => some (none, children)
  | some position => (removeAt? position children.entries).map fun (entry, left) => (some entry.2, ⟨left⟩)

/-- Takes the outputs at all positions that a segment leads to, from some position on, behind those that
were taken before. The position moves on unless an entry has been removed there. -/
def takeAllFrom? (segment : Segment) (entries : List (Slot × α)) (position : Nat) (taken : List α) :
    Option (List α × Children α) :=
  if position < entries.length then
    match entries[position]?.map (isUnder segment) with
    | none => none
    | some false => takeAllFrom? segment entries (position + 1) taken
    | some true =>
      match _h : removeAt? position entries with
      | none => none
      | some (entry, left) => takeAllFrom? segment left position (taken ++ [entry.2])
  else some (taken, ⟨entries⟩)
termination_by entries.length - position
decreasing_by
  · omega
  · have := length_lt_of_removeAt? _h
    omega

/-- Takes the outputs at all positions that a segment leads to. -/
def takeAllAt? (children : Children α) (segment : Segment) : Option (List α × Children α) :=
  takeAllFrom? segment children.entries 0 []

/-! ### Sequences of calls -/

/-- What children can be asked for. -/
inductive Call where
  | take (segment : Segment)
  | takeAll (segment : Segment)
  deriving DecidableEq

/-- The segment that a call asks for. -/
def Call.segment : Call → Segment
  | take segment => segment
  | takeAll segment => segment

/-- The outputs that a call hands out, and the children that are left. -/
def answer? (children : Children α) : Call → Option (List α × Children α)
  | .take segment => (children.takeAt? segment).map fun (output, left) => (output.toList, left)
  | .takeAll segment => children.takeAllAt? segment

/-- The outputs that each of some calls hands out, and the children that are left in the end. -/
def answers? : Children α → List Call → Option (List (List α) × Children α)
  | children, [] => some ([], children)
  | children, call :: calls => do
    let (outputs, left) ← children.answer? call
    let (later, last) ← left.answers? calls
    return (outputs :: later, last)

end GraphQLTree.Children
