import GraphQLTree.Proofs.Grammar.Entries

/-!
# Runs of a reader

Every part that is read adds elements to the derivation of its node: a **run** of elements leads from a
draft to another one. The order in which the children of different slots are added doesn't show in
the finished node (`Run.finish`), so a run only says which children there are in each slot.
-/

namespace GraphQLTree

/-- Whether the words of some marks are what lies between some lexemes and the rest of them. -/
def Takes (marks : List Mark) (lexemes rest : List Lexeme) : Prop :=
  ∃ taken, lexemes = taken ++ rest ∧ taken.map Lexeme.word = marks.map Mark.word

theorem Takes.congr {a b : List Mark} {lexemes rest : List Lexeme} (h : Takes a lexemes rest)
    (hwords : a.map Mark.word = b.map Mark.word) : Takes b lexemes rest := by
  obtain ⟨taken, hl, hw⟩ := h
  exact ⟨taken, hl, hw.trans hwords⟩

theorem Takes.append {a b : List Mark} {lexemes rest rest' : List Lexeme}
    (ha : Takes a lexemes rest) (hb : Takes b rest rest') : Takes (a ++ b) lexemes rest' := by
  obtain ⟨s, hs, hsw⟩ := ha
  obtain ⟨t, ht, htw⟩ := hb
  exact ⟨s ++ t, by rw [hs, ht, List.append_assoc],
    by rw [List.map_append, hsw, htw, List.map_append]⟩

theorem Draft.hasParts_iff {draft : Draft} :
    draft.hasParts = true ↔ ∃ slot : Slot, slot.holdsComments = false ∧ slot ≠ .name ∧
      entriesIn slot draft.entries ≠ [] := by
  simp only [hasParts, List.any_eq_true, Bool.and_eq_true, Bool.not_eq_true', bne_iff_ne]
  constructor
  · rintro ⟨entry, hmem, hslot, hname⟩
    exact ⟨entry.1, hslot, hname, List.ne_nil_of_mem (List.mem_filter.2 ⟨hmem, by simp⟩)⟩
  · rintro ⟨slot, hslot, hname, hne⟩
    obtain ⟨entry, he⟩ := List.exists_mem_of_ne_nil _ hne
    obtain ⟨hmem, rfl⟩ := by simpa [entriesIn] using he
    exact ⟨entry, hmem, hslot, hname⟩

/-- Elements that lead from a draft to another one, and from some lexemes to the rest of them. -/
structure Run (elements : List Element) (draft draft' : Draft) (lexemes rest : List Lexeme) :
    Prop where
  taken : Takes (Elements.marks elements) lexemes rest
  atom : draft'.atom = (Shape.atom? (Elements.shapes elements)).getD draft.atom
  entries : ∀ slot, entriesIn slot draft'.entries =
    entriesIn slot draft.entries ++ entriesIn slot (Elements.entries elements)
  derived : ∀ element ∈ elements, element.Derived

namespace Run

variable {draft draft' draft'' : Draft} {lexemes rest rest' : List Lexeme}

theorem nil (draft : Draft) (lexemes : List Lexeme) : Run [] draft draft lexemes lexemes where
  taken := ⟨[], rfl, rfl⟩
  atom := rfl
  entries slot := (List.append_nil _).symm
  derived := by simp

theorem append {a b : List Element} (ha : Run a draft draft' lexemes rest)
    (hb : Run b draft' draft'' rest rest') : Run (a ++ b) draft draft'' lexemes rest' where
  taken := by
    rw [Elements.marks_append]
    exact ha.taken.append hb.taken
  atom := by
    rw [hb.atom, ha.atom, Elements.shapes_append, Shape.atom?_append]
    cases Shape.atom? (Elements.shapes b) <;> rfl
  entries slot := by
    rw [hb.entries, ha.entries, Elements.entries_append, entriesIn_append, List.append_assoc]
  derived element h := (List.mem_append.1 h).elim (ha.derived element) (hb.derived element)

/-- Nothing that a draft has gets lost. -/
theorem hasParts {elements : List Element} (h : Run elements draft draft' lexemes rest)
    (hparts : draft.hasParts = true) : draft'.hasParts = true := by
  rw [Draft.hasParts_iff] at hparts ⊢
  obtain ⟨slot, hslot, hname, hne⟩ := hparts
  exact ⟨slot, hslot, hname, by simp [h.entries, hne]⟩

/-- An own token leads from a draft to the one with its comments and its gift. -/
theorem own (lexeme : Lexeme) (rest : List Lexeme) (slot : Slot)
    (spare : Bool) (gift : Gift)
    (hatom : draft'.atom = gift.atom?.getD draft.atom)
    (hentries : draft'.entries =
      draft.entries ++ (Node.ofComments slot lexeme.comments ++ gift.entries)) :
    Run [.own slot lexeme.word spare gift] draft draft' (lexeme :: rest) rest where
  taken := ⟨[lexeme], rfl, rfl⟩
  atom := by
    rw [hatom]
    cases gift <;> rfl
  entries s := by
    rw [hentries, entriesIn_append]
    simp [Elements.entries, Element.entries, Lexeme.word]
  derived := by simp [Element.Derived]

/-- A space leads nowhere. -/
theorem space (piece : Piece) (draft : Draft) (lexemes : List Lexeme) :
    Run [.space piece] draft draft lexemes lexemes where
  taken := ⟨[], rfl, rfl⟩
  atom := rfl
  entries s := by simp [entriesIn]
  derived := by simp [Element.Derived]

variable {slot : Slot} {goal : Goal}

/-- A child leads from a draft to the one with it. -/
theorem child {c : Child} (hd : Derives goal c.marks c.pieces c.node)
    (htaken : Takes c.marks lexemes rest) (draft : Draft) :
    Run [.child slot goal c] draft (draft.add slot c.node) lexemes rest where
  taken := by simpa [Elements.marks] using htaken
  atom := rfl
  entries s := by simp [Draft.add, entriesIn_append, Elements.entries]
  derived := by simpa [Element.Derived] using hd

/-- A run through children of one slot. -/
private theorem children (draft : Draft) {children : List Child} {elements : List Element}
    (htaken : Takes (children.flatMap Child.marks) lexemes rest)
    (hmarks : Elements.marks elements = children.flatMap Child.marks)
    (hatom : Shape.atom? (Elements.shapes elements) = none)
    (hentries : Elements.entries elements = children.map fun c => (slot, c.node))
    (hderived : ∀ element ∈ elements, element.Derived) :
    Run elements draft (draft.addAll slot (children.map Child.node)) lexemes rest where
  taken := by rwa [hmarks]
  atom := by rw [hatom]; rfl
  entries s := by simp [Draft.addAll, entriesIn_append, hentries, Function.comp_def]
  derived := hderived

variable {children : List Child}
  (hd : ∀ c ∈ children, Derives goal c.marks c.pieces c.node)
  (htaken : Takes (children.flatMap Child.marks) lexemes rest)
include hd htaken

theorem listed (padded : Bool) (draft : Draft) :
    Run (Element.listed slot goal padded children) draft
      (draft.addAll slot (children.map Child.node)) lexemes rest :=
  Run.children draft htaken (Element.marks_listed ..)
    (by rw [Element.shapes_listed]; exact Shape.atom?_listed ..)
    (Element.entries_listed ..) (Element.derived_listed _ hd padded)

theorem repeated (draft : Draft) :
    Run (Element.repeated slot goal children) draft
      (draft.addAll slot (children.map Child.node)) lexemes rest :=
  Run.children draft htaken (Element.marks_repeated ..)
    (by rw [Element.shapes_repeated]; exact Shape.atom?_times rfl _)
    (Element.entries_repeated ..) (Element.derived_repeated _ hd)

omit hd htaken in
/-- Children with delimiters between them lead to the draft with the comments behind them. -/
theorem separated (hslot : slot.holdsComments = false) {first : Child}
    {others : List (Word × Child)} {delimiter : Punctuator}
    (htokens : ∀ next ∈ others, next.1.token = .punct delimiter)
    (hfirst : Derives goal first.marks first.pieces first.node)
    (hothers : ∀ next ∈ others, Derives goal next.2.marks next.2.pieces next.2.node)
    (htaken : Takes (first.marks ++ others.flatMap fun next => ⟨next.1, false⟩ :: next.2.marks)
      lexemes rest) (draft : Draft) :
    Run (Element.separated slot goal first others) draft
      ((draft.addAll slot (first.node :: others.map (·.2.node))).addComments .comments
        (others.flatMap (·.1.comments))) lexemes rest where
  taken := by rwa [Element.marks_separated]
  atom := by
    rw [Element.shapes_separated slot goal first htokens, Shape.atom?_separated]
    rfl
  entries s := by
    rw [Element.entries_separated, entriesIn_append, entriesIn_separated hslot, ← entriesIn_append,
      ← entriesIn_append, ← entriesIn_append]
    simp [Draft.addComments, Draft.addAll, Function.comp_def]
  derived := Element.derived_separated slot hfirst hothers

end Run

/-! ### Finished nodes -/

/-- A run from the first draft of a node on, for a production. -/
theorem Run.finish {p : Production} {elements : List Element} {draft : Draft}
    {lexemes rest : List Lexeme}
    (h : Run elements ⟨p.rule.start, []⟩ draft lexemes rest) :
    draft.finish p.kind = p.finish elements := by
  rw [Draft.finish, Production.finish, h.atom, Node.arrange_congr p.kind h.entries]

/-- A demand is met by the own elements of a node. -/
theorem hasParts_shapes {p : Production} (hp : p.isReadable = true)
    {elements : List Element} (hspells : SpellItems p.rule.items (Elements.shapes elements))
    {start : Atom} {draft : Draft} {lexemes rest : List Lexeme}
    (hrun : Run elements ⟨start, []⟩ draft lexemes rest) (h : draft.hasParts = true) :
    Shape.hasParts (Elements.shapes elements) = true := by
  obtain ⟨slot, hslot, hname, hne⟩ := Draft.hasParts_iff.1 h
  have htidy := hspells.isTidy (Production.items_isReadable hp).2
  have hslots := Elements.slots_entriesIn htidy hslot
  have hmem : slot ∈ Shape.slots (Elements.shapes elements) := by
    rw [hrun.entries] at hne
    obtain ⟨s, hs⟩ := List.exists_mem_of_ne_nil _ (mt List.map_eq_nil_iff.1 hne)
    rw [List.map_append, hslots] at hs
    obtain ⟨hmem, rfl⟩ : s ∈ Shape.slots (Elements.shapes elements) ∧ s = slot := by
      simpa [entriesIn] using hs
    exact hmem
  simp only [Shape.hasParts, List.any_eq_true]
  exact ⟨slot, hmem, by simp [hslot, hname]⟩

/-- What tidy elements give counts as parts of the draft that they lead to. -/
theorem Run.hasParts_of_shapes {elements : List Element} {draft draft' : Draft}
    {lexemes rest : List Lexeme} (h : Run elements draft draft' lexemes rest)
    (htidy : ∀ shape ∈ Elements.shapes elements, shape.IsTidy)
    (hparts : Shape.hasParts (Elements.shapes elements) = true) : draft'.hasParts = true := by
  obtain ⟨slot, hmem, hslot⟩ := List.any_eq_true.1 hparts
  simp only [Bool.and_eq_true, Bool.not_eq_true', bne_iff_ne] at hslot
  refine Draft.hasParts_iff.2 ⟨slot, hslot.1, hslot.2, fun hnil => ?_⟩
  rw [h.entries, List.append_eq_nil_iff] at hnil
  have hslots := Elements.slots_entriesIn htidy hslot.1
  rw [hnil.2] at hslots
  exact absurd hslots.symm (List.ne_nil_of_mem (List.mem_filter.2 ⟨hmem, by simp⟩))

theorem Shape.hasParts_append (a b : List Shape) :
    hasParts (a ++ b) = (hasParts a || hasParts b) := by
  simp only [hasParts, slots_append, List.any_append]

end GraphQLTree
