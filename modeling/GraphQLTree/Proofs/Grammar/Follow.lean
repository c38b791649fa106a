import GraphQLTree.Proofs.Grammar.Starts

/-!
# What may follow goals

A reader of a goal takes all that it can, so what stands behind the words of a goal must not look like
more of it. The tokens that do are of the goal's **further** classes (`Goal.further`). No rule lets such
a token stand behind one of its parts (`Production.decides`), which is why one or two tokens are
enough for every decision of a reader.
-/

namespace GraphQLTree

/-- Whether some lexemes don't start with a token of some classes. -/
def Clear (classes : List TokenClass) (lexemes : List Lexeme) : Prop :=
  ∀ token ∈ firstToken lexemes, token.toClass ∉ classes

theorem Clear.mono {as bs : List TokenClass} {lexemes : List Lexeme} (h : Clear bs lexemes)
    (hsub : as ⊆ bs) : Clear as lexemes :=
  fun token ht hmem => h token ht (hsub hmem)

/-- Whether no class is in both of two lists. -/
def TokenClass.apart (as bs : List TokenClass) : Bool :=
  as.all (· ∉ bs)

theorem TokenClass.not_mem_of_apart {as bs : List TokenClass} (h : apart as bs = true)
    {c : TokenClass} (hc : c ∈ bs) : c ∉ as :=
  fun ha => of_decide_eq_true (List.all_eq_true.1 h c ha) hc

/-! ### Further classes -/

section Further

variable (ofGoal : Goal → List TokenClass)

/-- The classes of the tokens that a reader takes for more of a part. -/
def Part.further : Part → List TokenClass
  | child _ goal => ofGoal goal
  | opened _ _ goal => ofGoal goal
  | repeated _ goal start => .punct start :: ofGoal goal
  | separated _ goal delimiter => .punct delimiter :: ofGoal goal
  | _ => []

/-- The classes of the tokens that a reader takes for more of parts. -/
def furtherOfParts : List Part → List TokenClass
  | [] => []
  | part :: parts =>
    (if parts.all Part.mayBeEmpty then part.further ofGoal else []) ++ furtherOfParts parts

/-- The classes of the tokens that a reader takes for more of an item. -/
def Item.further : Item → List TokenClass
  | part p => p.further ofGoal
  | group guard _ parts =>
    (match guard.second with
      | none => guard.first.classes
      | some _ => []) ++ furtherOfParts ofGoal parts

/-- The classes of the tokens that a reader takes for more of an item when it has read some shapes for
it: a group that is there isn't begun again. -/
def Item.furtherAs (shapes : List Shape) : Item → List TokenClass
  | part p => p.further ofGoal
  | group guard presence parts =>
    if shapes.isEmpty then (group guard presence parts).further ofGoal
    else furtherOfParts ofGoal parts

/-- The classes of the tokens that make a reader take the token before them for a group. -/
def Item.furtherBehind : Item → List TokenClass
  | group ⟨_, some second⟩ _ _ => second.classes
  | _ => []

/-- The classes of the tokens that a reader takes for more of items. -/
def furtherOfItems : List Item → List TokenClass
  | [] => []
  | item :: items =>
    (if items.all Item.mayBeEmpty then item.further ofGoal else []) ++
      (if items.tail.all Item.mayBeEmpty then item.furtherBehind else []) ++ furtherOfItems items

end Further

/-- The classes of the tokens that a reader takes for more of a goal, going through so many
rules. -/
def Goal.furtherWithin : Nat → Goal → List TokenClass
  | 0, _ => []
  | n + 1, goal =>
    (if goal = .type then [.punct .exclamation] else []) ++
      goal.productions.flatMap fun p => furtherOfItems (furtherWithin n) p.rule.items

/-- The classes of the tokens that a reader takes for more of a goal. -/
def Goal.further : Goal → List TokenClass :=
  furtherWithin 4

/-- Going through more rules finds nothing new. -/
theorem Production.further_subset {goal : Goal} {p : Production} (h : p ∈ goal.productions) :
    furtherOfItems Goal.further p.rule.items ⊆ goal.further := by
  have hcheck := Production.check (fun p => (furtherOfItems Goal.further p.rule.items).all fun c =>
    c ∈ furtherOfItems (Goal.furtherWithin 3) p.rule.items) (by decide) p
  intro c hc
  exact List.mem_append_right _
    (List.mem_flatMap.2 ⟨p, h, by simpa using List.all_eq_true.1 hcheck c hc⟩)

theorem Item.furtherAs_subset (ofGoal : Goal → List TokenClass) (item : Item)
    (shapes : List Shape) : item.furtherAs ofGoal shapes ⊆ item.further ofGoal := by
  cases item with
  | part p => exact List.Subset.refl _
  | group guard presence parts =>
    rw [furtherAs]
    split
    · exact List.Subset.refl _
    · exact List.subset_append_right _ _

/-- Items that spell some shapes in front of lexemes that don't look like more of them. -/
inductive SpellBefore (rest : List Lexeme) : List Item → List Shape → Prop
  | nil : SpellBefore rest [] []
  | cons {item : Item} {items : List Item} {a b : List Shape} (ha : item.Spells a)
    (hb : SpellBefore rest items b)
    (hfurther : items.all Item.mayBeEmpty = true → Clear (item.furtherAs Goal.further a) rest)
    (hbehind : items.tail.all Item.mayBeEmpty = true → Clear item.furtherBehind rest) :
    SpellBefore rest (item :: items) (a ++ b)

theorem SpellBefore.spells {rest : List Lexeme} {items : List Item} {shapes : List Shape}
    (h : SpellBefore rest items shapes) : SpellItems items shapes := by
  induction h with
  | nil => exact .nil
  | cons ha hb hfurther hbehind ih => exact .cons ha ih

theorem SpellBefore.exists_append {rest : List Lexeme} {item : Item} {items : List Item}
    {shapes : List Shape} (h : SpellBefore rest (item :: items) shapes) :
    ∃ a b, shapes = a ++ b ∧ item.Spells a ∧ SpellBefore rest items b ∧
      (items.all Item.mayBeEmpty = true → Clear (item.furtherAs Goal.further a) rest) ∧
      (items.tail.all Item.mayBeEmpty = true → Clear item.furtherBehind rest) := by
  cases h with
  | cons ha hb hfurther hbehind => exact ⟨_, _, rfl, ha, hb, hfurther, hbehind⟩

/-- It is enough that what is behind the items looks like more of none of them. -/
theorem SpellItems.before {items : List Item} {shapes : List Shape} (h : SpellItems items shapes)
    {rest : List Lexeme} (hrest : Clear (furtherOfItems Goal.further items) rest) :
    SpellBefore rest items shapes := by
  induction h with
  | nil => exact .nil
  | @cons item items a b ha hb ih =>
    refine .cons ha (ih (hrest.mono fun c hc => List.mem_append_right _ hc)) (fun hempty => ?_)
      fun hempty => ?_
    · refine hrest.mono fun c hc => ?_
      have hc := item.furtherAs_subset Goal.further a hc
      simp [furtherOfItems, hempty, hc]
    · exact hrest.mono fun c hc => by simp [furtherOfItems, hempty, hc]

/-! ### Decisions -/

/-- Whether a reader can tell the children of a part from each other and from what follows. -/
def Part.decides : Part → Bool
  | listed _ goal close _ =>
    TokenClass.apart [.punct close] goal.starts &&
      TokenClass.apart goal.further (.punct close :: goal.starts)
  | opened p _ goal => goal.starts.all (· = .punct p)
  | repeated _ goal start =>
    goal.starts.all (· = .punct start) && TokenClass.apart goal.further [.punct start]
  | separated _ goal delimiter =>
    TokenClass.apart [.punct delimiter] goal.starts &&
      TokenClass.apart goal.further [.punct delimiter]
  | _ => true

/-- Whether a part may stand in a group: a list goes on up to a bracket, and a demand looks back on
all items. -/
def Part.isGroupable : Part → Bool
  | listed _ _ _ _ => false
  | demand _ => false
  | _ => true

/-- Whether a reader of parts can tell each of them from what follows. -/
def decidesParts : List Part → Bool
  | [] => true
  | part :: parts =>
    part.decides && part.isGroupable &&
      TokenClass.apart (part.further Goal.further) (startsOfParts Goal.starts parts) &&
      decidesParts parts

/-- Whether a reader can tell an item from the items that follow, and whether it is there. A demand
looks back on all other items. -/
def Item.decides (items : List Item) : Item → Bool
  | part (.listed slot goal close allowEmpty) =>
    (Part.listed slot goal close allowEmpty).decides &&
      match items with
      | .part (.bracket p _) :: _ => p = close
      | _ => false
  | part (.demand _) => items.isEmpty
  | part p =>
    p.decides && TokenClass.apart (p.further Goal.further) (startsOfItems Goal.starts items)
  | group ⟨first, none⟩ _ parts =>
    decidesParts parts && !parts.all Part.mayBeEmpty &&
      (startsOfParts Goal.starts parts).all (· ∈ first.classes) &&
      TokenClass.apart (first.classes ++ furtherOfParts Goal.further parts)
        (startsOfItems Goal.starts items)
  | group ⟨first, some second⟩ _ parts =>
    first = .name &&
      match parts, items with
      | [.name _ _, .punct p, .gap _], .part (.name _ _) :: items =>
        second = .punct p && TokenClass.apart [.punct p] (startsOfItems Goal.starts items)
      | _, _ => false

/-- Whether a reader of items can tell each of them from what follows. -/
def decidesItems : List Item → Bool
  | [] => true
  | item :: items => item.decides items && decidesItems items

/-- A reader of a production can tell each item from what follows. -/
theorem Production.decides {p : Production} (h : p.isReadable = true) :
    decidesItems p.rule.items = true := by
  have hcheck := check (fun p => !p.isReadable || decidesItems p.rule.items) (by decide) p
  simpa [h] using hcheck

/-- A reader of a production can tell a description from what follows. -/
theorem Production.decides_description {p : Production} (h : p.rule.described = true) :
    Item.description.decides p.rule.items = true := by
  have hcheck := check (fun p => !p.rule.described || Item.description.decides p.rule.items)
    (by decide) p
  simpa [h] using hcheck

end GraphQLTree
