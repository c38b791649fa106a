import GraphQLTree.Proofs.Grammar.Definitions
import GraphQLTree.Proofs.Language.Symbols

/-!
# Derivations of words follow the grammar

A derivation of words without comments is one of the grammar (`Derives.yields`): what the items of a rule
spell, their symbols yield.
-/

namespace GraphQLTree

open Language

namespace Mark

/-- The tokens of words. -/
def tokens (marks : List Mark) : List Token :=
  marks.map fun mark => mark.word.token

/-- Whether words have no comments. -/
def Bare (marks : List Mark) : Prop :=
  ∀ mark ∈ marks, mark.word.comments = []

@[simp] theorem tokens_append (a b : List Mark) : tokens (a ++ b) = tokens a ++ tokens b :=
  List.map_append

@[simp] theorem tokens_cons (mark : Mark) (marks : List Mark) :
    tokens (mark :: marks) = mark.word.token :: tokens marks := rfl

@[simp] theorem tokens_nil : tokens [] = [] := rfl

theorem bare_append {a b : List Mark} : Bare (a ++ b) ↔ Bare a ∧ Bare b := by
  simp [Bare, or_imp, forall_and]

theorem bare_cons {mark : Mark} {marks : List Mark} :
    Bare (mark :: marks) ↔ mark.word.comments = [] ∧ Bare marks := by
  simp [Bare]

end Mark

/-- Own tokens of words without comments. -/
theorem Elements.eq_own_of_bare {elements : List Element} {slot : Slot} {token : Token}
    {spare : Bool} {gift : Gift} (h : shapes elements = [.own slot token spare gift])
    (hbare : Mark.Bare (marks elements)) : elements = [.own slot ⟨token, []⟩ spare gift] := by
  obtain ⟨comments, rfl⟩ := eq_own_of_shapes h
  obtain rfl : comments = [] := hbare _ List.mem_cons_self
  rfl

namespace Language

/-- Children are derived one after the other. -/
theorem Yields.nodes (slot : Slot) {n : Nonterminal} {children : List Child}
    (hchildren : ∀ c ∈ children, YieldsNode n (Mark.tokens c.marks) c.node)
    {symbols : List Symbol} {tokens : List Token} {contents : Contents}
    (h : Yields YieldsNode symbols tokens contents) :
    Yields YieldsNode (.many slot n :: symbols) (Mark.tokens (children.flatMap Child.marks) ++ tokens)
      { contents with
        children := (children.map fun c => (slot, c.node)) ++ contents.children } := by
  induction children with
  | nil => exact .none slot n h
  | cons c children ih =>
    have htail := ih fun d hd => hchildren d (List.mem_cons_of_mem _ hd)
    rw [List.flatMap_cons, Mark.tokens_append, List.append_assoc]
    exact .more (.child slot (hchildren c List.mem_cons_self) htail)

/-- Children are derived with a delimiter before each. -/
theorem Yields.delimitedNodes (slot : Slot) {n : Nonterminal} {delimiter : Punctuator}
    {others : List (Word × Child)} (htokens : ∀ next ∈ others, next.1.token = .punct delimiter)
    (hchildren : ∀ next ∈ others, YieldsNode n (Mark.tokens next.2.marks) next.2.node)
    {symbols : List Symbol} {tokens : List Token} {contents : Contents}
    (h : Yields YieldsNode symbols tokens contents) :
    Yields YieldsNode (.delimited slot n delimiter :: symbols)
      (Mark.tokens (others.flatMap fun next => ⟨next.1, false⟩ :: next.2.marks) ++ tokens)
      { contents with
        children := (others.map fun next => (slot, next.2.node)) ++ contents.children } := by
  induction others with
  | nil => exact .last slot n delimiter h
  | cons next others ih =>
    have htail := ih (fun m hm => htokens m (List.mem_cons_of_mem _ hm))
      fun m hm => hchildren m (List.mem_cons_of_mem _ hm)
    rw [List.flatMap_cons, Mark.tokens_append, Mark.tokens_cons, List.append_assoc,
      List.cons_append, htokens next List.mem_cons_self]
    exact .next (.punct delimiter (.child slot (hchildren next List.mem_cons_self) htail))

end Language

/-! ### Items -/

/-- What elements give to a node, if they have no comments, and what is given besides. -/
def Elements.contents (elements : List Element) (contents : Contents) : Contents :=
  ⟨entries elements ++ contents.children, Shape.atoms (shapes elements) ++ contents.atoms⟩

theorem Elements.contents_append (a b : List Element) (contents : Contents) :
    Elements.contents (a ++ b) contents = Elements.contents a (Elements.contents b contents) := by
  simp [Elements.contents, Shape.atoms_append]

/-- A child that the grammar derives. -/
def Element.Yielded : Element → Prop
  | child _ goal c => YieldsNode goal.nonterminal (Mark.tokens c.marks) c.node
  | _ => True

section Items

variable {symbols : List Symbol} {tokens : List Token} {contents : Contents}

/-- A child is derived as the grammar derives it. -/
private theorem yields_child {slot : Slot} {goal : Goal} {elements : List Element}
    (hshapes : Elements.shapes elements = [.child slot goal])
    (hyielded : ∀ element ∈ elements, element.Yielded) (h : Yields YieldsNode symbols tokens contents) :
    Yields YieldsNode (.child slot goal.nonterminal :: symbols)
      (Mark.tokens (Elements.marks elements) ++ tokens) (Elements.contents elements contents) := by
  obtain ⟨c, rfl⟩ := Elements.eq_child_of_shapes hshapes
  have hc : YieldsNode goal.nonterminal (Mark.tokens c.marks) c.node :=
    hyielded _ List.mem_cons_self
  have hall := Yields.child slot hc h
  simpa [Elements.contents, Shape.atoms] using hall

/-- What children with delimiters between them spell, their symbols yield. -/
private theorem yields_separated {slot : Slot} {goal : Goal} {delimiter : Punctuator} {n : Nat}
    {elements : List Element}
    (hshapes : Elements.shapes elements = Shape.separated slot goal delimiter n)
    (hbare : Mark.Bare (Elements.marks elements))
    (hyielded : ∀ element ∈ elements, element.Yielded) (h : Yields YieldsNode symbols tokens contents) :
    Yields YieldsNode
      (.child slot goal.nonterminal :: .delimited slot goal.nonterminal delimiter :: symbols)
      (Mark.tokens (Elements.marks elements) ++ tokens) (Elements.contents elements contents) := by
  obtain ⟨first, others, rfl, rfl, htokens⟩ := Elements.exists_separated_of_shapes hshapes
  have hmem {c : Child} (hc : c ∈ first :: others.map Prod.snd) :
      YieldsNode goal.nonterminal (Mark.tokens c.marks) c.node :=
    hyielded _ (Element.mem_separated slot goal hc)
  have htail := Yields.delimitedNodes slot htokens
    (fun next hn => hmem (List.mem_cons_of_mem _ (List.mem_map_of_mem hn))) h
  have hall := Yields.child slot (hmem List.mem_cons_self) htail
  rw [Element.marks_separated, Mark.bare_append] at hbare
  -- The delimiters have no comments, so the children are the only entries.
  have hcomments : (others.flatMap fun next =>
      Node.ofComments .comments next.1.comments ++ [(slot, next.2.node)]) =
        others.map fun next => (slot, next.2.node) := by
    rw [List.map_eq_flatMap]
    refine List.flatMap_congr fun next hn => ?_
    have hnext : next.1.comments = [] :=
      hbare.2 ⟨next.1, false⟩ (List.mem_flatMap.2 ⟨next, hn, List.mem_cons_self⟩)
    rw [hnext]
    rfl
  -- Separated children give no atom.
  have hspells : (Part.separated slot goal delimiter).Spells
      (Elements.shapes (Element.separated slot goal first others)) := by
    rw [Element.shapes_separated slot goal first htokens]
    exact .separated slot goal delimiter _
  have hatoms := hspells.atoms_eq_nil rfl
  rw [Elements.contents, hatoms, Element.marks_separated, Mark.tokens_append, List.append_assoc,
    Element.entries_separated, hcomments]
  exact hall

/-- What a list spells, its symbols yield. -/
private theorem yields_listed {slot : Slot} {goal : Goal} {close : Punctuator} {allowEmpty : Bool}
    {n : Nat} (hempty : n = 0 → allowEmpty = true) {elements : List Element}
    (hshapes : Elements.shapes elements = Shape.listed slot goal (close = .braceClose) n)
    (hyielded : ∀ element ∈ elements, element.Yielded) (h : Yields YieldsNode symbols tokens contents) :
    Yields YieldsNode ((Part.listed slot goal close allowEmpty).symbols ++ symbols)
      (Mark.tokens (Elements.marks elements) ++ tokens) (Elements.contents elements contents) := by
  have hatoms := Part.Spells.atoms_eq_nil (.listed slot goal close allowEmpty n hempty) rfl
  obtain ⟨children, rfl, rfl⟩ := Elements.exists_listed_of_shapes hshapes
  have hc (c : Child) (hc : c ∈ children) :
      YieldsNode goal.nonterminal (Mark.tokens c.marks) c.node :=
    hyielded _ (Element.mem_listed slot goal _ hc)
  rw [Elements.contents, hshapes, hatoms, Element.marks_listed, Element.entries_listed]
  cases allowEmpty with
  | true => exact Yields.nodes slot hc h
  | false =>
    -- The symbols ask for the first child apart from the others.
    cases children with
    | nil => cases hempty rfl
    | cons c children =>
      have htail := Yields.nodes slot (fun d hd => hc d (List.mem_cons_of_mem _ hd)) h
      rw [List.flatMap_cons, Mark.tokens_append, List.append_assoc]
      exact .some (.child slot (hc c List.mem_cons_self) htail)

/-- What a part spells, its symbols yield. -/
theorem Part.yields {part : Part} {elements : List Element}
    (hspells : part.Spells (Elements.shapes elements)) (hbare : Mark.Bare (Elements.marks elements))
    (hyielded : ∀ element ∈ elements, element.Yielded) (h : Yields YieldsNode symbols tokens contents) :
    Yields YieldsNode (part.symbols ++ symbols) (Mark.tokens (Elements.marks elements) ++ tokens)
      (Elements.contents elements contents) := by
  generalize hshapes : Elements.shapes elements = shapes at hspells
  -- Own tokens have no comments, so they leave nothing in the contents but what they give.
  cases hspells with
  | gap g =>
    obtain rfl := Elements.eq_space_of_shapes hshapes
    exact h
  | punct p =>
    obtain rfl := Elements.eq_own_of_bare hshapes hbare
    exact .punct p h
  | bracket p slot =>
    obtain rfl := Elements.eq_own_of_bare hshapes hbare
    exact .punct p h
  | keyword k =>
    obtain rfl := Elements.eq_own_of_bare hshapes hbare
    exact .keyword k h
  | name slot rule text hrefuses =>
    obtain rfl := Elements.eq_own_of_bare hshapes hbare
    exact .name slot ((rule.refuses_eq_none_iff text).1 hrefuses) h
  | spacedName slot text =>
    obtain ⟨a, b, rfl, ha, hb⟩ := Elements.exists_append_of_shapes (a := [.space .hard]) hshapes
    obtain rfl := Elements.eq_space_of_shapes ha
    obtain rfl := Elements.eq_own_of_bare hb hbare
    exact .name slot (by simp) h
  | literal l token atom hread =>
    obtain rfl := Elements.eq_own_of_bare hshapes hbare
    exact .lexical (Literal.gives_of_read hread) h
  | child slot goal => exact yields_child hshapes hyielded h
  | opened p slot goal => exact yields_child hshapes hyielded h
  | listed slot goal close allowEmpty n hempty => exact yields_listed hempty hshapes hyielded h
  | repeated slot goal start n =>
    have hatoms := Part.Spells.atoms_eq_nil (.repeated slot goal start n) rfl
    obtain ⟨children, rfl, rfl⟩ := Elements.exists_repeated_of_shapes hshapes
    rw [Elements.contents, hshapes, hatoms, Element.marks_repeated, Element.entries_repeated]
    exact Yields.nodes slot (fun c hc => hyielded _ (Element.mem_repeated slot goal hc)) h
  | separated slot goal delimiter n =>
    exact .separated (yields_separated hshapes hbare hyielded h)
  | spared slot goal delimiter n =>
    obtain ⟨a, b, rfl, ha, hb⟩ := Elements.exists_append_of_shapes (a := [.spare delimiter]) hshapes
    rw [Elements.marks_append, Mark.bare_append] at hbare
    obtain rfl := Elements.eq_own_of_bare ha hbare.1
    exact .leading (.punct delimiter (yields_separated hb hbare.2
      (fun element he => hyielded element (List.mem_append_right _ he)) h))
  | demand p =>
    obtain rfl := List.map_eq_nil_iff.1 hshapes
    exact h

/-- What parts spell, their symbols yield. -/
theorem SpellParts.yields {parts : List Part} {elements : List Element}
    (hspells : SpellParts parts (Elements.shapes elements))
    (hbare : Mark.Bare (Elements.marks elements))
    (hyielded : ∀ element ∈ elements, element.Yielded) (h : Yields YieldsNode symbols tokens contents) :
    Yields YieldsNode (parts.flatMap Part.symbols ++ symbols)
      (Mark.tokens (Elements.marks elements) ++ tokens) (Elements.contents elements contents) := by
  induction parts generalizing elements with
  | nil =>
    obtain rfl := List.map_eq_nil_iff.1 hspells.eq_nil
    exact h
  | cons part parts ih =>
    obtain ⟨es, fs, rfl, ha, hb⟩ := hspells.exists_split
    rw [Elements.marks_append, Mark.bare_append] at hbare
    have htail := ih hb hbare.2 fun element he => hyielded element (List.mem_append_right _ he)
    have hhead := Part.yields ha hbare.1
      (fun element he => hyielded element (List.mem_append_left _ he)) htail
    simpa [Elements.contents_append] using hhead

/-- What items spell, their symbols yield. -/
theorem SpellItems.yields {items : List Item} {elements : List Element}
    (hspells : SpellItems items (Elements.shapes elements))
    (hbare : Mark.Bare (Elements.marks elements))
    (hyielded : ∀ element ∈ elements, element.Yielded) :
    Yields YieldsNode (items.flatMap Item.symbols) (Mark.tokens (Elements.marks elements))
      (Elements.contents elements ⟨[], []⟩) := by
  induction items generalizing elements with
  | nil =>
    obtain rfl := List.map_eq_nil_iff.1 hspells.eq_nil
    exact .nil
  | cons item items ih =>
    obtain ⟨es, fs, rfl, ha, hb⟩ := hspells.exists_split
    rw [Elements.marks_append, Mark.bare_append] at hbare
    have htail := ih hb hbare.2 fun element he => hyielded element (List.mem_append_right _ he)
    have hyes (element : Element) (he : element ∈ es) : element.Yielded :=
      hyielded element (List.mem_append_left _ he)
    rw [List.flatMap_cons, Elements.marks_append, Mark.tokens_append, Elements.contents_append]
    cases item with
    | part p => exact Part.yields ha.of_part hbare.1 hyes htail
    | group guard presence parts =>
      rcases ha.of_group with ha | ha
      · obtain rfl := List.map_eq_nil_iff.1 ha
        exact .absent _ htail
      · exact .present (SpellParts.yields ha hbare.1 hyes htail)

end Items

/-! ### Nodes -/

/-- The children of elements without comments stand in the slots of their shapes. -/
theorem Elements.map_slot_entries {elements : List Element} (hbare : Mark.Bare (marks elements)) :
    (entries elements).map Prod.fst = Shape.slots (shapes elements) := by
  induction elements with
  | nil => rfl
  | cons element elements ih =>
    rw [marks_cons, Mark.bare_append] at hbare
    rw [entries_cons, List.map_append, ih hbare.2, shapes_cons, ← List.singleton_append,
      Shape.slots_append]
    congr 1
    cases element with
    | space piece => rfl
    | own slot word spare gift =>
      have hword : word.comments = [] := hbare.1 _ List.mem_cons_self
      rw [Element.entries, hword]
      cases gift <;> rfl
    | child slot goal c => rfl

/-- The node of a production is that of its form. -/
theorem Production.node_form {p : Production} (hp : p.isReadable = true) (description : Option Child)
    {elements : List Element} (hspells : SpellItems p.rule.items (Elements.shapes elements)) :
    p.finish (descriptionElements description ++ elements) =
      p.form.node (Elements.contents (descriptionElements description ++ elements) ⟨[], []⟩) := by
  have hlength := hspells.length_atoms (Production.isOrderly hp).singleAtom
  have hdescription : Shape.atoms (Elements.shapes (descriptionElements description)) = [] := by
    cases description <;> rfl
  have hatom : (Shape.atom? (Elements.shapes (descriptionElements description ++ elements))).getD
        p.rule.start =
      (Shape.atoms (Elements.shapes (descriptionElements description ++ elements))).headD
        p.rule.start := by
    rw [Shape.atom?_eq, Elements.shapes_append, Shape.atoms_append, hdescription, List.nil_append]
    match Shape.atoms (Elements.shapes elements), hlength with
    | [], _ => rfl
    | [a], _ => rfl
  simp only [finish, Form.node, Elements.contents, p.kind_form, p.atom_form, List.append_nil, hatom]

/-- The items of a production spell its elements, but for the line break behind a description. -/
theorem Production.exists_items {p : Production} {description : Option Child}
    {elements : List Element} (hdescribed : description.isSome = true → p.rule.described = true)
    (hspells : SpellItems p.rule.items (Elements.shapes elements)) :
    ∃ es, SpellItems p.items (Elements.shapes es) ∧
      es ⊆ descriptionElements description ++ elements ∧
      Elements.marks es = Elements.marks (descriptionElements description ++ elements) ∧
      Elements.contents es ⟨[], []⟩ =
        Elements.contents (descriptionElements description ++ elements) ⟨[], []⟩ := by
  cases description with
  | none =>
    refine ⟨elements, ?_, List.Subset.refl _, rfl, rfl⟩
    rw [items]
    split
    · exact .cons (.skip ..) hspells
    · exact hspells
  | some c =>
    refine ⟨.child .description (.kind .stringValue) c :: elements, ?_, ?_, rfl, rfl⟩
    · rw [items, if_pos (hdescribed rfl)]
      exact .cons (.take _ _ (.cons (.child _ _) .nil)) hspells
    · exact List.cons_subset.2
        ⟨List.mem_append_left _ List.mem_cons_self, List.subset_append_right _ _⟩

/-- What the elements of a production are, its form yields. -/
theorem Production.yields {p : Production} (hp : p.isReadable = true) {description : Option Child}
    {elements : List Element} (hdescribed : description.isSome = true → p.rule.described = true)
    (hspells : SpellItems p.rule.items (Elements.shapes elements))
    (hdemand : p.demands = true → Shape.hasParts (Elements.shapes elements) = true)
    (hbare : Mark.Bare (Elements.marks (descriptionElements description ++ elements)))
    (hchildren : ∀ slot subgoal c,
      .child slot subgoal c ∈ descriptionElements description ++ elements →
      ∀ n, subgoal.nonterminal? = some n → YieldsNode n (Mark.tokens c.marks) c.node)
    {n : Nonterminal} (hform : p.form ∈ forms n) :
    YieldsNode n (Mark.tokens (Elements.marks (descriptionElements description ++ elements)))
      (p.finish (descriptionElements description ++ elements)) := by
  obtain ⟨es, hitems, hsub, hmarks, hcontents⟩ := exists_items hdescribed hspells
  have hyielded (element : Element) (he : element ∈ es) : element.Yielded := by
    cases element with
    | child slot subgoal c =>
      obtain ⟨part, hpart, hmakes⟩ := hitems.makes _ (List.mem_map_of_mem he)
      obtain ⟨item, hitem, hpart⟩ := List.mem_flatMap.1 hpart
      exact hchildren slot subgoal c (hsub he) _ (Part.nonterminal_of_asks hp hitem hpart hmakes)
    | _ => trivial
  rw [Production.node_form hp description hspells]
  refine .form hform ?_ fun hext => ?_
  · rw [← hmarks, ← hcontents, ← Production.symbols_items hp]
    exact hitems.yields (hmarks ▸ hbare) hyielded
  · -- An extension has a child besides its name.
    rw [p.kind_form, ← Production.demands_eq hp] at hext
    obtain ⟨slot, hslot, hname⟩ := List.any_eq_true.1 (hdemand hext)
    rw [Elements.marks_append, Mark.bare_append] at hbare
    rw [← Elements.map_slot_entries hbare.2] at hslot
    obtain ⟨entry, hentry, rfl⟩ := List.mem_map.1 hslot
    refine ⟨entry, ?_, by simpa using (Bool.and_eq_true_iff.1 hname).2⟩
    rw [Elements.contents, Elements.entries_append]
    exact List.mem_append_left _ (List.mem_append_right _ hentry)

/-- Words without comments that make a node follow the grammar. -/
theorem Derives.yields {goal : Goal} {marks : List Mark} {pieces : List Piece} {node : Node}
    (h : Derives goal marks pieces node) (hbare : Mark.Bare marks) {n : Nonterminal}
    (hn : goal.nonterminal? = some n) : YieldsNode n (Mark.tokens marks) node := by
  induction h generalizing n with
  | @production goal p description elements hgoal hreadable hdescribed hspells hdemand hquery
      hdescription hchildren ihdescription ihchildren =>
    refine Production.yields hreadable hdescribed hspells hdemand hbare
      (fun slot subgoal c hc m hm => ?_) (Goal.form_mem hn hgoal)
    have hc' : Mark.Bare c.marks := fun mark hmark =>
      hbare mark (List.mem_flatMap.2 ⟨.child slot subgoal c, hc, hmark⟩)
    rcases List.mem_append.1 hc with hmem | hmem
    · obtain ⟨rfl, rfl, hdesc⟩ := mem_descriptionElements hmem
      exact ihdescription c hdesc hc' hm
    · exact ihchildren slot subgoal c hmem hc' hm
  | @query goal c comments hgoal hshorthand hchild ih =>
    -- A query in shorthand is derived as an operation with its keyword.
    obtain ⟨hnode, hwords⟩ := Derives.query_elements comments c
    obtain ⟨hcomments, hc⟩ := Mark.bare_cons.1 hbare
    obtain rfl : comments = [] := hcomments
    have hbare' : Mark.Bare (Elements.marks (descriptionElements none ++ queryElements [] c)) := by
      simpa [descriptionElements, queryElements, Mark.bare_cons] using hc
    have hyields := Production.yields (by decide) (by simp) (spellItems_query [] c)
      (fun hdemand => by cases hdemand) hbare' (fun slot subgoal child hmem m hm => ?_)
      (Goal.form_mem hn hgoal)
    · rw [← hnode]
      simpa [descriptionElements, queryElements, queryMark] using hyields
    · obtain ⟨rfl, rfl, rfl⟩ : slot = .selectionSet ∧ subgoal = .kind .selectionSet ∧ child = c := by
        simpa [descriptionElements, queryElements] using hmem
      exact ih hc hm
  | @nonNull marks pieces node comments h hkind ih =>
    obtain rfl := Option.some.inj hn
    rw [Mark.bare_append] at hbare
    obtain rfl : comments = [] := hbare.2 _ List.mem_cons_self
    -- The type in front of the exclamation mark is none with an exclamation mark itself, so it is
    -- derived by one of the other forms.
    have hnullable : YieldsNode .nullableType (Mark.tokens marks) node := by
      cases ih hbare.1 rfl with
      | @form _ form hform tokens contents hinner hadds =>
        refine .form ?_ hinner hadds
        simp only [forms, List.mem_cons, List.not_mem_nil, or_false] at hform ⊢
        rcases hform with rfl | rfl | rfl
        · exact .inl rfl
        · exact .inr rfl
        · exact absurd rfl hkind
    have hyields : Yields YieldsNode (Form.ofKind .nonNullType).symbols
        (Mark.tokens marks ++ [.punct .exclamation]) ⟨[(.type, node)], []⟩ :=
      .child .type hnullable (.punct .exclamation .nil)
    rw [Mark.tokens_append]
    have hform : Form.ofKind .nonNullType ∈ forms .type := by simp [forms]
    exact .form hform hyields fun hext => by cases hext

end GraphQLTree
