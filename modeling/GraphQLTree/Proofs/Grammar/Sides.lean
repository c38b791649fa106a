import GraphQLTree.Proofs.Grammar.Slots
import GraphQLTree.Proofs.Grammar.Starts

/-!
# The sides of what items spell

What the items of a rule spell **opens** with a token or a child (`Production.opens`), so the comments in
front of a node stand in front of something, and it never ends in a space (`Production.closes`), so a
comment behind a node stands directly behind the token that it belongs to.
-/

namespace GraphQLTree

/-! ### What stands first -/

namespace Shape

/-- Whether shapes begin with a token that is written or with a child. -/
def opens : List Shape → Bool
  | own _ _ spare _ :: _ => !spare
  | child _ _ :: _ => true
  | _ => false

theorem opens_append {a : List Shape} (h : opens a = true) (b : List Shape) :
    opens (a ++ b) = true := by
  cases a with
  | nil => cases h
  | cons shape a => cases shape <;> exact h

end Shape

/-- Whether all that a part spells opens with a token or a child. -/
def Part.opens : Part → Bool
  | punct _ => true
  | bracket _ _ => true
  | keyword _ => true
  | name _ _ => true
  | literal _ => true
  | child _ _ => true
  | opened _ _ _ => true
  | _ => false

/-- Whether all that items spell opens with a token or a child. -/
def itemsOpen : List Item → Bool
  | [] => false
  | .part p :: _ => p.opens
  | .group _ _ parts :: items => parts.head?.any Part.opens && itemsOpen items

theorem Part.Spells.opens {part : Part} {shapes : List Shape} (h : part.Spells shapes)
    (hpart : part.opens = true) : Shape.opens shapes = true := by
  cases h <;> first | rfl | cases hpart

theorem SpellParts.opens {parts : List Part} {shapes : List Shape} (h : SpellParts parts shapes)
    (hparts : parts.head?.any Part.opens = true) : Shape.opens shapes = true := by
  cases h with
  | nil => cases hparts
  | cons ha hb => exact Shape.opens_append (ha.opens hparts) _

theorem SpellItems.opens {items : List Item} {shapes : List Shape} (h : SpellItems items shapes)
    (hitems : itemsOpen items = true) : Shape.opens shapes = true := by
  induction h with
  | nil => cases hitems
  | @cons item items a b ha hb ih =>
    cases ha with
    | part h => exact Shape.opens_append (h.opens hitems) b
    | skip guard presence parts => exact ih (Bool.and_eq_true_iff.1 hitems).2
    | take guard presence h =>
      exact Shape.opens_append (h.opens (Bool.and_eq_true_iff.1 hitems).1) b

/-! ### What stands last -/

/-- Whether a part may spell shapes that end in a space. -/
def Part.endsInSpace : Part → Bool
  | gap _ => true
  | listed _ _ close _ => close = .braceClose
  | _ => false

/-- Whether a part always spells shapes that don't end in a space. -/
def Part.seals (part : Part) : Bool :=
  !part.mayBeEmpty && !part.endsInSpace

/-- Whether a space that a part ends in always has something behind it. -/
def partsClose : List Part → Bool
  | [] => true
  | part :: parts => partsClose parts && (!part.endsInSpace || parts.any Part.seals)

/-- Whether an item may spell shapes that end in a space. -/
def Item.endsInSpace : Item → Bool
  | part p => p.endsInSpace
  | group _ _ parts => !partsClose parts

/-- Whether an item always spells shapes that don't end in a space. -/
def Item.seals : Item → Bool
  | part p => p.seals
  | group _ _ _ => false

/-- Whether a space that an item ends in always has something behind it. -/
def itemsClose : List Item → Bool
  | [] => true
  | item :: items => itemsClose items && (!item.endsInSpace || items.any Item.seals)

/-- Whether shapes don't end in a space. -/
def Shape.Closes (shapes : List Shape) : Prop :=
  ∀ piece, shapes.getLast? ≠ some (.space piece)

namespace Shape

theorem closes_nil : Closes [] := by
  simp [Closes]

theorem Closes.append {a b : List Shape} (ha : b = [] → Closes a) (hb : Closes b) :
    Closes (a ++ b) := by
  rcases List.eq_nil_or_concat b with rfl | ⟨init, last, rfl⟩
  · simpa using ha rfl
  · intro piece
    simpa [Closes] using hb piece

theorem closes_times {step : List Shape} (h : Closes step) (n : Nat) : Closes (times step n) := by
  induction n with
  | zero => exact closes_nil
  | succ n ih => exact Closes.append (fun _ => h) ih

theorem closes_separated (slot : Slot) (goal : Goal) (delimiter : Punctuator) (n : Nat) :
    Closes (separated slot goal delimiter n) := by
  have hstep : Closes [space .soft, plain (.punct delimiter), space .soft, child slot goal] := by
    simp [Closes]
  refine Closes.append (a := [child slot goal]) (fun _ => ?_) (closes_times hstep n)
  simp [Closes]

end Shape

open Shape (Closes)

theorem Part.Spells.ne_nil {part : Part} {shapes : List Shape} (h : part.Spells shapes)
    (hpart : part.mayBeEmpty = false) : shapes ≠ [] := by
  cases h with
  | listed slot goal close allowEmpty n h =>
    cases n with
    | zero => rw [mayBeEmpty, h rfl] at hpart; cases hpart
    | succ n => simp [Shape.listed]
  | separated slot goal delimiter n => simp [Shape.separated]
  | gap g => cases hpart
  | repeated slot goal start n => cases hpart
  | demand p => cases hpart
  | _ => simp

/-- Parts that always spell something leave nothing empty. -/
theorem SpellParts.ne_nil {parts : List Part} {shapes : List Shape} (h : SpellParts parts shapes)
    (hparts : parts.any Part.seals = true) : shapes ≠ [] := by
  obtain ⟨part, hpart, hseals⟩ := List.any_eq_true.1 hparts
  obtain ⟨a, ha, hsub⟩ := h.exists_of_mem hpart
  have hne := ha.ne_nil (by simpa using (Bool.and_eq_true_iff.1 hseals).1)
  rintro rfl
  exact hne (List.eq_nil_of_subset_nil hsub)

theorem SpellItems.ne_nil {items : List Item} {shapes : List Shape} (h : SpellItems items shapes)
    (hitems : items.any Item.seals = true) : shapes ≠ [] := by
  obtain ⟨item, hitem, hseals⟩ := List.any_eq_true.1 hitems
  cases item with
  | part p =>
    obtain ⟨a, ha, hsub⟩ := h.exists_of_mem hitem
    have hne := ha.ne_nil (by simpa using (Bool.and_eq_true_iff.1 hseals).1)
    rintro rfl
    exact hne (List.eq_nil_of_subset_nil hsub)
  | group guard presence parts => cases hseals

theorem Part.Spells.closes {part : Part} {shapes : List Shape} (h : part.Spells shapes)
    (hpart : part.endsInSpace = false) : Closes shapes := by
  cases h with
  | gap g => cases hpart
  | listed slot goal close allowEmpty n h =>
    rw [endsInSpace] at hpart
    cases n with
    | zero => exact Shape.closes_nil
    | succ n =>
      have htimes : Closes (Shape.times [.space .comma, .child slot goal] n) :=
        Shape.closes_times (by simp [Closes]) n
      have hbody : Closes (.child slot goal :: Shape.times [.space .comma, .child slot goal] n) :=
        Closes.append (a := [.child slot goal]) (fun _ => by simp [Closes]) htimes
      simpa [Shape.listed, hpart] using hbody
  | repeated slot goal start n => exact Shape.closes_times (by simp [Closes]) n
  | separated slot goal delimiter n => exact Shape.closes_separated slot goal delimiter n
  | spared slot goal delimiter n =>
    refine Closes.append (a := [Shape.spare delimiter]) (fun _ => ?_) (Shape.closes_separated slot goal delimiter n)
    simp [Closes, Shape.spare]
  | _ => simp [Closes, Shape.plain]

theorem SpellParts.closes {parts : List Part} {shapes : List Shape} (h : SpellParts parts shapes)
    (hparts : partsClose parts = true) : Closes shapes := by
  induction h with
  | nil => exact Shape.closes_nil
  | cons ha hb ih =>
    obtain ⟨htail, hhead⟩ := Bool.and_eq_true_iff.1 hparts
    refine Closes.append (fun hnil => ha.closes (Bool.eq_false_iff.2 fun hspace => ?_)) (ih htail)
    exact hb.ne_nil (by simpa [hspace] using hhead) hnil

theorem Item.Spells.closes {item : Item} {shapes : List Shape} (h : item.Spells shapes)
    (hitem : item.endsInSpace = false) : Closes shapes := by
  cases h with
  | part h => exact h.closes hitem
  | skip guard presence parts => exact Shape.closes_nil
  | take guard presence h => exact h.closes (by simpa [endsInSpace] using hitem)

theorem SpellItems.closes {items : List Item} {shapes : List Shape} (h : SpellItems items shapes)
    (hitems : itemsClose items = true) : Closes shapes := by
  induction h with
  | nil => exact Shape.closes_nil
  | cons ha hb ih =>
    obtain ⟨htail, hhead⟩ := Bool.and_eq_true_iff.1 hitems
    refine Closes.append (fun hnil => ha.closes (Bool.eq_false_iff.2 fun hspace => ?_)) (ih htail)
    exact hb.ne_nil (by simpa [hspace] using hhead) hnil

/-! ### Productions -/

namespace Production

variable {p : Production} (hp : p.isReadable = true)
include hp

/-- Items open with a token or a child. -/
theorem opens {shapes : List Shape} (h : SpellItems p.rule.items shapes) :
    Shape.opens shapes = true := by
  have hcheck := check (fun p => !p.isReadable || itemsOpen p.rule.items) (by decide) p
  exact h.opens (by simpa [hp] using hcheck)

/-- Items don't end in a space. -/
theorem closes {shapes : List Shape} (h : SpellItems p.rule.items shapes) : Closes shapes := by
  have hcheck := check (fun p => !p.isReadable || itemsClose p.rule.items) (by decide) p
  exact h.closes (by simpa [hp] using hcheck)

end Production

end GraphQLTree
