import GraphQLTree.Proofs.Language.Sound

/-!
# Everything that follows the grammar has a derivation

Tokens that the grammar derives a node from are the tokens of words that make the node
(`YieldsNode.exists_derives`): the symbols of a rule's items say which elements the items spell.
-/

namespace GraphQLTree

open Language

namespace Language

/-- Every induction over derivations goes from the nonterminals of a form to the form's. -/
theorem YieldsNode.induct {motive : Nonterminal → List Token → Node → Prop}
    (form : ∀ {n : Nonterminal} {form : Form}, form ∈ forms n → ∀ {tokens : List Token}
      {contents : Contents}, Yields motive form.symbols tokens contents →
      (isExtension form.kind = true → contents.AddsSomething) →
      motive n tokens (form.node contents))
    {n : Nonterminal} {tokens : List Token} {node : Node} (h : YieldsNode n tokens node) :
    motive n tokens node := by
  refine @YieldsNode.rec (fun n tokens node _ => motive n tokens node)
    (fun symbols tokens contents _ => Yields motive symbols tokens contents)
    (fun hform _ _ _ hadds ih => form hform ih hadds)
    .nil (fun p _ _ _ _ ih => .punct p ih) (fun k _ _ _ _ ih => .keyword k ih)
    (fun slot _ _ hname _ _ _ _ ih => .name slot hname ih)
    (fun hgives _ _ _ _ ih => .lexical hgives ih)
    (fun slot _ _ _ _ _ _ _ _ ihinner ih => .child slot ihinner ih)
    (fun optional _ _ _ _ ih => .absent optional ih) (fun _ ih => .present ih)
    (fun slot n _ _ _ _ ih => .none slot n ih) (fun _ ih => .more ih) (fun _ ih => .some ih)
    (fun _ ih => .separated ih) (fun _ ih => .leading ih)
    (fun slot n delimiter _ _ _ _ ih => .last slot n delimiter ih) (fun _ ih => .next ih)
    n tokens node h

/-- Tokens that symbols yield are valid if those of nonterminals are. -/
theorem Yields.valid {derives : Nonterminal → List Token → Node → Prop}
    (hderives : ∀ n tokens node, derives n tokens node → ∀ token ∈ tokens, token ≠ .invalid)
    {symbols : List Symbol} {tokens : List Token} {contents : Contents}
    (h : Yields derives symbols tokens contents) : ∀ token ∈ tokens, token ≠ .invalid := by
  induction h with
  | nil => simp
  | punct p _ ih => simpa using ih
  | keyword k _ ih => simpa using ih
  | name slot hname _ ih => simpa using ih
  | @lexical sort token atom hgives symbols tokens contents _ ih =>
    have hvalid : token ≠ .invalid := by cases hgives <;> simp
    simpa [hvalid] using ih
  | child slot hinner _ ih => exact List.forall_mem_append.2 ⟨hderives _ _ _ hinner, ih⟩
  | absent optional _ ih => exact ih
  | present _ ih => exact ih
  | none slot n _ ih => exact ih
  | more _ ih => exact ih
  | some _ ih => exact ih
  | separated _ ih => exact ih
  | leading _ ih => exact ih
  | last slot n delimiter _ ih => exact ih
  | next _ ih => exact ih

/-- Tokens that follow the grammar are valid. -/
theorem YieldsNode.valid {n : Nonterminal} {tokens : List Token} {node : Node}
    (h : YieldsNode n tokens node) : ∀ token ∈ tokens, token ≠ .invalid :=
  h.induct (motive := fun _ tokens _ => ∀ token ∈ tokens, token ≠ .invalid)
    fun _ => fun ih _ => Yields.valid (fun _ _ _ hvalid => hvalid) ih

end Language

/-- Whether some tokens are those of a child without comments that a goal derives. -/
def Goal.Finds (goal : Goal) (tokens : List Token) (node : Node) : Prop :=
  ∃ c : Child, c.node = node ∧ Mark.tokens c.marks = tokens ∧ Mark.Bare c.marks ∧
    Derives goal c.marks c.pieces c.node

/-- Whether some tokens make a node for every goal that is a nonterminal. -/
def Found? (n : Nonterminal) (tokens : List Token) (node : Node) : Prop :=
  (∀ goal : Goal, goal.nonterminal? = some n → goal.isReadable = true → goal.Finds tokens node) ∧
    (n = .nullableType → Goal.type.Finds tokens node ∧ node.kind ≠ .nonNullType)

/-- Whether the first of some tokens are those of elements without comments, and some symbols yield
the other ones. -/
def Leads (elements : List Element) (symbols : List Symbol) (tokens : List Token)
    (contents : Contents) : Prop :=
  Mark.Bare (Elements.marks elements) ∧ (∀ element ∈ elements, element.Derived) ∧
    ∃ tokens' contents', tokens = Mark.tokens (Elements.marks elements) ++ tokens' ∧
      contents = Elements.contents elements contents' ∧ Yields Found? symbols tokens' contents'

namespace Leads

variable {symbols : List Symbol} {tokens : List Token} {contents : Contents}

theorem nil (h : Yields Found? symbols tokens contents) : Leads [] symbols tokens contents :=
  ⟨by simp [Mark.Bare], by simp, tokens, contents, rfl, rfl, h⟩

theorem cons {elements : List Element} {element : Element} {tokens' : List Token}
    {contents' : Contents} (hbare : Mark.Bare element.marks) (hderived : element.Derived)
    (htokens : tokens = Mark.tokens element.marks ++ tokens')
    (hcontents : contents = Elements.contents [element] contents')
    (h : Leads elements symbols tokens' contents') :
    Leads (element :: elements) symbols tokens contents := by
  obtain ⟨hbare', hderived', tokens'', contents'', rfl, rfl, h⟩ := h
  refine ⟨?_, ?_, tokens'', contents'', ?_, ?_, h⟩
  · rw [Elements.marks_cons]
    exact Mark.bare_append.2 ⟨hbare, hbare'⟩
  · simpa [hderived] using hderived'
  · rw [htokens, Elements.marks_cons, Mark.tokens_append, List.append_assoc]
  · rw [hcontents, ← Elements.contents_append]
    rfl

/-- A space is in front of anything. -/
theorem space (piece : Piece) {elements : List Element} (h : Leads elements symbols tokens contents) :
    Leads (.space piece :: elements) symbols tokens contents :=
  cons (by simp [Mark.Bare]) trivial rfl rfl h

/-- An own token without comments. -/
theorem own (slot : Slot) (token : Token) (spare : Bool) (gift : Gift) {elements : List Element}
    (h : Leads elements symbols tokens contents) :
    Leads (.own slot ⟨token, []⟩ spare gift :: elements) symbols (token :: tokens)
      (Elements.contents [.own slot ⟨token, []⟩ spare gift] contents) :=
  cons (by simp [Mark.Bare]) trivial rfl rfl h

/-- A child. -/
theorem child (slot : Slot) {goal : Goal} {c : Child} (hbare : Mark.Bare c.marks)
    (hderived : Derives goal c.marks c.pieces c.node) {elements : List Element}
    (h : Leads elements symbols tokens contents) :
    Leads (.child slot goal c :: elements) symbols (Mark.tokens c.marks ++ tokens)
      { contents with children := (slot, c.node) :: contents.children } :=
  cons hbare hderived rfl (by simp [Elements.contents, Shape.atoms]) h

theorem append {a b : List Element} {tokens' : List Token} {contents' : Contents}
    (hbare : Mark.Bare (Elements.marks a)) (hderived : ∀ element ∈ a, element.Derived)
    (h : Leads b symbols tokens' contents') :
    Leads (a ++ b) symbols (Mark.tokens (Elements.marks a) ++ tokens')
      (Elements.contents a contents') := by
  obtain ⟨hbare', hderived', tokens'', contents'', rfl, rfl, h⟩ := h
  refine ⟨?_, ?_, tokens'', contents'', ?_, ?_, h⟩
  · rw [Elements.marks_append]
    exact Mark.bare_append.2 ⟨hbare, hbare'⟩
  · intro element he
    exact (List.mem_append.1 he).elim (hderived element) (hderived' element)
  · rw [Elements.marks_append, Mark.tokens_append, List.append_assoc]
  · rw [Elements.contents_append]

end Leads

/-! ### Children -/

section Children

variable {slot : Slot} {goal : Goal} (hn : goal.nonterminal? = some goal.nonterminal)
  (hgoal : goal.isReadable = true) {symbols : List Symbol} {tokens : List Token}
  {contents : Contents}
include hn hgoal

/-- What the symbol of a child yields is a child, which has a token. -/
theorem Leads.exists_child
    (h : Yields Found? (.child slot goal.nonterminal :: symbols) tokens contents) :
    ∃ (c : Child) (tokens' : List Token) (contents' : Contents),
      Yields Found? symbols tokens' contents' ∧ tokens'.length < tokens.length ∧
      ∀ {elements : List Element} {symbols' : List Symbol},
        Leads elements symbols' tokens' contents' →
        Leads (.child slot goal c :: elements) symbols' tokens contents := by
  cases h with
  | child _ hinner h =>
    obtain ⟨c, rfl, rfl, hbare, hd⟩ := hinner.1 goal hn hgoal
    have hpos := hd.length_pos
    exact ⟨c, _, _, h, by simpa [Mark.tokens] using hpos, Leads.child slot hbare hd⟩

/-- What the symbol of many children yields is children. -/
theorem Leads.exists_many
    (h : Yields Found? (.many slot goal.nonterminal :: symbols) tokens contents) :
    ∃ children : List Child, Leads (children.map (.child slot goal)) symbols tokens contents := by
  induction hlength : tokens.length using Nat.strong_induction_on generalizing tokens contents with
  | _ n ih =>
    cases h with
    | none _ _ h => exact ⟨[], .nil h⟩
    | more h =>
      obtain ⟨c, tokens', contents', h, hlt, hlead⟩ := exists_child hn hgoal h
      obtain ⟨children, hchildren⟩ := ih _ (hlength ▸ hlt) h rfl
      exact ⟨c :: children, hlead hchildren⟩

/-- What the symbol of more children with delimiters yields is delimiters and children. -/
theorem Leads.exists_delimited {delimiter : Punctuator}
    (h : Yields Found? (.delimited slot goal.nonterminal delimiter :: symbols) tokens contents) :
    ∃ others : List (Word × Child), (∀ next ∈ others, next.1.token = .punct delimiter) ∧
      Leads (others.flatMap fun next => Element.delimited slot goal next.1 next.2) symbols tokens
        contents := by
  induction hlength : tokens.length using Nat.strong_induction_on generalizing tokens contents with
  | _ n ih =>
    cases h with
    | last _ _ _ h => exact ⟨[], by simp, .nil h⟩
    | next h =>
      cases h with
      | punct _ h =>
        obtain ⟨c, tokens', contents', h, hlt, hlead⟩ := exists_child hn hgoal h
        obtain ⟨others, htokens, hothers⟩ := ih _ (by simp at hlength; omega) h rfl
        refine ⟨(⟨.punct delimiter, []⟩, c) :: others, by simpa using htokens, ?_⟩
        exact .space _ (.own .comments (.punct delimiter) false .nothing (.space _ (hlead hothers)))

/-- What the symbol of separated children yields is children with delimiters between them. -/
theorem Leads.exists_separated {delimiter : Punctuator}
    (h : Yields Found? (.child slot goal.nonterminal ::
      .delimited slot goal.nonterminal delimiter :: symbols) tokens contents) :
    ∃ (first : Child) (others : List (Word × Child)),
      (∀ next ∈ others, next.1.token = .punct delimiter) ∧
      Leads (Element.separated slot goal first others) symbols tokens contents := by
  obtain ⟨first, tokens', contents', h, -, hlead⟩ := exists_child hn hgoal h
  obtain ⟨others, htokens, hothers⟩ := exists_delimited hn hgoal h
  exact ⟨first, others, htokens, hlead hothers⟩

end Children

/-! ### Items -/

/-- Children stand in other elements of the same words and nodes, with spaces between them. -/
theorem Leads.children {slot : Slot} {goal : Goal} {children : List Child} {symbols : List Symbol}
    {tokens : List Token} {contents : Contents}
    (h : Leads (children.map (.child slot goal)) symbols tokens contents) {elements : List Element}
    (hmarks : Elements.marks elements = children.flatMap Child.marks)
    (hentries : Elements.entries elements = children.map fun c => (slot, c.node))
    (hatoms : Shape.atoms (Elements.shapes elements) = [])
    (hderived : (∀ c ∈ children, Derives goal c.marks c.pieces c.node) →
      ∀ element ∈ elements, element.Derived) : Leads elements symbols tokens contents := by
  obtain ⟨hbare, hchildren, tokens', contents', rfl, rfl, h⟩ := h
  have hmarks' : Elements.marks (children.map (.child slot goal)) = Elements.marks elements := by
    rw [hmarks, Elements.marks, List.flatMap_map]
    rfl
  have hentries' : Elements.entries (children.map (.child slot goal)) =
      Elements.entries elements := by
    rw [hentries, Elements.entries, List.flatMap_map, List.map_eq_flatMap]
    rfl
  -- Children have no atoms.
  have hatoms' : Shape.atoms (Elements.shapes (children.map (.child slot goal))) = [] := by
    clear hentries hentries' hmarks hmarks' hbare hchildren hderived
    induction children with
    | nil => rfl
    | cons c children ih => exact ih
  refine ⟨hmarks' ▸ hbare, hderived fun c hc => ?_, tokens', contents', by rw [hmarks'], ?_, h⟩
  · exact hchildren (.child slot goal c) (List.mem_map_of_mem hc)
  · rw [Elements.contents, Elements.contents, hentries', hatoms, hatoms']

/-- What the symbols of a list yield is spelled by the list. -/
private theorem exists_listed {slot : Slot} {goal : Goal}
    (hn : goal.nonterminal? = some goal.nonterminal) (hgoal : goal.isReadable = true)
    (close : Punctuator) {allowEmpty : Bool} {symbols : List Symbol} {tokens : List Token}
    {contents : Contents}
    (h : Yields Found? ((Part.listed slot goal close allowEmpty).symbols ++ symbols) tokens
      contents) :
    ∃ elements, (Part.listed slot goal close allowEmpty).Spells (Elements.shapes elements) ∧
      Leads elements symbols tokens contents := by
  -- The symbols of a list that may be empty ask for any number of children, the others for a first
  -- one.
  obtain ⟨children, hempty, hlead⟩ : ∃ children : List Child,
      (children.length = 0 → allowEmpty = true) ∧
      Leads (children.map (.child slot goal)) symbols tokens contents := by
    cases allowEmpty with
    | true =>
      obtain ⟨children, hlead⟩ := Leads.exists_many hn hgoal h
      exact ⟨children, fun _ => rfl, hlead⟩
    | false =>
      cases h with
      | some h =>
        obtain ⟨c, tokens', contents', h, -, hlead⟩ := Leads.exists_child hn hgoal h
        obtain ⟨children, hchildren⟩ := Leads.exists_many hn hgoal h
        exact ⟨c :: children, by simp, hlead hchildren⟩
  have hspells : (Part.listed slot goal close allowEmpty).Spells
      (Elements.shapes (Element.listed slot goal (close = .braceClose) children)) := by
    rw [Element.shapes_listed]
    exact .listed slot goal close allowEmpty _ hempty
  exact ⟨_, hspells, hlead.children (Element.marks_listed ..) (Element.entries_listed ..)
    (hspells.atoms_eq_nil rfl) fun hd => Element.derived_listed slot hd _⟩

/-- What the symbols of separated children yield is spelled by them. -/
private theorem exists_separated {slot : Slot} {goal : Goal}
    (hn : goal.nonterminal? = some goal.nonterminal) (hgoal : goal.isReadable = true)
    {delimiter : Punctuator} {symbols : List Symbol} {tokens : List Token} {contents : Contents}
    (h : Yields Found? ((Part.separated slot goal delimiter).symbols ++ symbols) tokens contents) :
    ∃ elements, (Part.separated slot goal delimiter).Spells (Elements.shapes elements) ∧
      Leads elements symbols tokens contents := by
  have hshapes {first : Child} {others : List (Word × Child)}
      (htokens : ∀ next ∈ others, next.1.token = .punct delimiter) :=
    Element.shapes_separated slot goal first htokens
  cases h with
  | separated h =>
    obtain ⟨first, others, htokens, hlead⟩ := Leads.exists_separated hn hgoal h
    refine ⟨_, ?_, hlead⟩
    rw [hshapes htokens]
    exact .separated slot goal delimiter _
  -- A delimiter in front of the first child is spelled as a spare token.
  | leading h =>
    cases h with
    | punct _ h =>
      obtain ⟨first, others, htokens, hlead⟩ := Leads.exists_separated hn hgoal h
      refine ⟨_, ?_, .own .comments (.punct delimiter) true .nothing hlead⟩
      rw [Elements.shapes_cons, hshapes htokens]
      exact .spared slot goal delimiter _

/-- What the symbols of a part yield is spelled by the part. -/
theorem Part.exists_elements {part : Part} (hpart : part.isReadable = true)
    (hasks : ∀ ask ∈ part.asks, ask.2.nonterminal? = some ask.2.nonterminal)
    {symbols : List Symbol} {tokens : List Token} {contents : Contents}
    (h : Yields Found? (part.symbols ++ symbols) tokens contents) :
    ∃ elements, part.Spells (Elements.shapes elements) ∧ Leads elements symbols tokens contents := by
  have hgoal {ask : Slot × Goal} (hmem : ask ∈ part.asks) : ask.2.isReadable = true :=
    (isReadable_of_asks hpart hmem).2
  -- The first symbol of a part tells how its derivation begins. The elements have no comments.
  cases part with
  | gap g => exact ⟨[.space g.piece], .gap g, .space _ (.nil h)⟩
  | punct p =>
    cases h with
    | punct _ h =>
      refine ⟨_, ?_, .own .comments (.punct p) false .nothing (.nil h)⟩
      exact .punct p
  | bracket p slot =>
    cases h with
    | punct _ h =>
      refine ⟨_, ?_, .own slot (.punct p) false .nothing (.nil h)⟩
      exact .bracket p slot
  | keyword k =>
    cases h with
    | keyword _ h =>
      refine ⟨_, ?_, .own .comments (.name k.text) false .nothing (.nil h)⟩
      exact .keyword k
  | name slot rule =>
    cases h with
    | name _ hname h =>
      refine ⟨_, ?_, .own .comments (.name _) false (.name slot _) (.nil h)⟩
      exact .name slot rule _ ((rule.refuses_eq_none_iff _).2 hname)
  | spacedName slot =>
    cases h with
    | name _ hname h =>
      refine ⟨_, ?_, .space .hard (.own .comments (.name _) false (.name slot _) (.nil h))⟩
      exact .spacedName slot _
  | literal l =>
    cases h with
    | lexical hgives h =>
      refine ⟨_, ?_, .own .comments _ false (.atom _) (.nil h)⟩
      exact .literal l _ _ (Literal.read_of_gives hgives)
  | child slot goal =>
    have hask : (slot, goal) ∈ (Part.child slot goal).asks := List.mem_singleton_self _
    obtain ⟨c, tokens', contents', h, -, hlead⟩ := Leads.exists_child (hasks _ hask) (hgoal hask) h
    exact ⟨[.child slot goal c], .child slot goal, hlead (.nil h)⟩
  | opened p slot goal =>
    have hask : (slot, goal) ∈ (Part.opened p slot goal).asks := List.mem_singleton_self _
    obtain ⟨c, tokens', contents', h, -, hlead⟩ := Leads.exists_child (hasks _ hask) (hgoal hask) h
    exact ⟨[.child slot goal c], .opened p slot goal, hlead (.nil h)⟩
  | listed slot goal close allowEmpty =>
    have hask : (slot, goal) ∈ (Part.listed slot goal close allowEmpty).asks :=
      List.mem_singleton_self _
    exact exists_listed (hasks _ hask) (hgoal hask) close h
  | repeated slot goal start =>
    have hask : (slot, goal) ∈ (Part.repeated slot goal start).asks := List.mem_singleton_self _
    obtain ⟨children, hlead⟩ := Leads.exists_many (hasks _ hask) (hgoal hask) h
    have hspells : (Part.repeated slot goal start).Spells
        (Elements.shapes (Element.repeated slot goal children)) := by
      rw [Element.shapes_repeated]
      exact .repeated slot goal start _
    exact ⟨_, hspells, hlead.children (Element.marks_repeated ..) (Element.entries_repeated ..)
      (hspells.atoms_eq_nil rfl) (Element.derived_repeated slot)⟩
  | separated slot goal delimiter =>
    have hask : (slot, goal) ∈ (Part.separated slot goal delimiter).asks := List.mem_singleton_self _
    exact exists_separated (hasks _ hask) (hgoal hask) h
  | juxtaposed slot => simp [Part.isReadable, Part.hasTidySlot] at hpart
  | demand p => exact ⟨[], .demand p, .nil h⟩

/-- What the symbols of parts yield is spelled by the parts. -/
theorem SpellParts.exists_elements {parts : List Part}
    (hparts : ∀ part ∈ parts, part.isReadable = true)
    (hasks : ∀ part ∈ parts, ∀ ask ∈ part.asks, ask.2.nonterminal? = some ask.2.nonterminal)
    {symbols : List Symbol} {tokens : List Token} {contents : Contents}
    (h : Yields Found? (parts.flatMap Part.symbols ++ symbols) tokens contents) :
    ∃ elements, SpellParts parts (Elements.shapes elements) ∧
      Leads elements symbols tokens contents := by
  induction parts generalizing tokens contents with
  | nil => exact ⟨[], .nil, .nil h⟩
  | cons part parts ih =>
    rw [List.flatMap_cons, List.append_assoc] at h
    obtain ⟨elements, hspells, hbare, hderived, tokens', contents', rfl, rfl, htail⟩ :=
      Part.exists_elements (hparts part List.mem_cons_self) (hasks part List.mem_cons_self) h
    obtain ⟨others, hothers, hlead⟩ := ih (fun p hp => hparts p (List.mem_cons_of_mem _ hp))
      (fun p hp => hasks p (List.mem_cons_of_mem _ hp)) htail
    refine ⟨elements ++ others, ?_, .append hbare hderived hlead⟩
    rw [Elements.shapes_append]
    exact .cons hspells hothers

/-- What the symbols of items yield is spelled by the items. -/
theorem SpellItems.exists_elements {items : List Item}
    (hitems : ∀ item ∈ items, item.isReadable = true)
    (hasks : ∀ item ∈ items, ∀ part ∈ item.parts, ∀ ask ∈ part.asks,
      ask.2.nonterminal? = some ask.2.nonterminal)
    {symbols : List Symbol} {tokens : List Token} {contents : Contents}
    (h : Yields Found? (items.flatMap Item.symbols ++ symbols) tokens contents) :
    ∃ elements, SpellItems items (Elements.shapes elements) ∧
      Leads elements symbols tokens contents := by
  induction items generalizing tokens contents with
  | nil => exact ⟨[], .nil, .nil h⟩
  | cons item items ih =>
    rw [List.flatMap_cons, List.append_assoc] at h
    have hitem := hitems item List.mem_cons_self
    have hask := hasks item List.mem_cons_self
    obtain ⟨elements, hspells, hbare, hderived, tokens', contents', rfl, rfl, htail⟩ :
        ∃ elements, item.Spells (Elements.shapes elements) ∧
          Leads elements (items.flatMap Item.symbols ++ symbols) tokens contents := by
      cases item with
      | part p =>
        obtain ⟨elements, hspells, hlead⟩ :=
          Part.exists_elements hitem (hask p (List.mem_singleton_self _)) h
        exact ⟨elements, .part hspells, hlead⟩
      | group guard presence parts =>
        cases h with
        | absent _ h => exact ⟨[], .skip guard presence parts, .nil h⟩
        | present h =>
          obtain ⟨elements, hspells, hlead⟩ :=
            SpellParts.exists_elements (List.all_eq_true.1 hitem) hask h
          exact ⟨elements, .take guard presence hspells, hlead⟩
    obtain ⟨others, hothers, hlead⟩ := ih (fun i hi => hitems i (List.mem_cons_of_mem _ hi))
      (fun i hi => hasks i (List.mem_cons_of_mem _ hi)) htail
    refine ⟨elements ++ others, ?_, .append hbare hderived hlead⟩
    rw [Elements.shapes_append]
    exact .cons hspells hothers

/-! ### Nodes -/

/-- The elements of all items of a production are those of a description and of its rule. -/
theorem Production.exists_description {p : Production} {all : List Element}
    (h : SpellItems p.items (Elements.shapes all)) :
    ∃ description elements, (description.isSome = true → p.rule.described = true) ∧
      SpellItems p.rule.items (Elements.shapes elements) ∧
      Elements.marks all = Elements.marks (descriptionElements description ++ elements) ∧
      (∀ contents, Elements.contents all contents =
        Elements.contents (descriptionElements description ++ elements) contents) ∧
      ((∀ element ∈ all, element.Derived) →
        ∀ element ∈ descriptionElements description ++ elements, element.Derived) := by
  rw [Production.items] at h
  split at h
  · next hdescribed =>
    obtain ⟨es, elements, rfl, ha, hb⟩ := h.exists_split
    rcases Elements.exists_description ha with rfl | ⟨c, rfl⟩
    · exact ⟨none, elements, by simp, hb, rfl, fun _ => rfl, id⟩
    · refine ⟨some c, elements, fun _ => hdescribed, hb, rfl, fun _ => rfl, fun hderived => ?_⟩
      simp only [descriptionElements, List.mem_append, List.mem_cons, List.not_mem_nil, or_false]
      rintro element ((rfl | rfl) | he)
      · exact hderived _ (by simp)
      · trivial
      · exact hderived element (List.mem_append_right _ he)
  · exact ⟨none, all, by simp, h, rfl, fun _ => rfl, id⟩

/-- Rules that demand something have no description. -/
theorem Production.described_of_demands {p : Production} (h : p.demands = true) :
    p.rule.described = false := by
  have hcheck := check (fun p => !p.demands || !p.rule.described) (by decide) p
  simpa [h] using hcheck

/-- What the form of a production yields has a derivation. -/
theorem Production.finds {goal : Goal} (hgoal : goal.isReadable = true) {p : Production}
    (hp : p ∈ goal.productions) {tokens : List Token} {contents : Contents}
    (h : Yields Found? p.form.symbols tokens contents)
    (hadds : isExtension p.form.kind = true → contents.AddsSomething) :
    goal.Finds tokens (p.form.node contents) := by
  have hreadable := Goal.isReadable_of_mem hgoal hp
  rw [← Production.symbols_items hreadable, ← List.append_nil (p.items.flatMap _)] at h
  obtain ⟨all, hall, hbare, hderived, tokens', contents', rfl, rfl, hnil⟩ :=
    SpellItems.exists_elements (p.isReadable_of_mem_items hreadable)
      (fun item hitem part hpart ask hask => Part.nonterminal_of_asks hreadable hitem hpart hask) h
  cases hnil
  obtain ⟨description, elements, hdescribed, hspells, hmarks, hcontents, hderived'⟩ :=
    Production.exists_description hall
  rw [hmarks] at hbare ⊢
  rw [hcontents] at hadds ⊢
  have hdemand (hd : p.demands = true) : Shape.hasParts (Elements.shapes elements) = true := by
    obtain rfl : description = none := by
      have hnone := Production.described_of_demands hd
      cases description with
      | none => rfl
      | some c => rw [hdescribed rfl] at hnone; cases hnone
    rw [Production.demands_eq hreadable, ← p.kind_form] at hd
    obtain ⟨entry, hentry, hname⟩ := hadds hd
    have hslots : (Elements.entries elements).map Prod.fst = Shape.slots (Elements.shapes elements) :=
      Elements.map_slot_entries hbare
    have hslot : entry.1 ∈ Shape.slots (Elements.shapes elements) := by
      rw [← hslots]
      exact List.mem_map_of_mem (by simpa [Elements.contents, descriptionElements] using hentry)
    obtain ⟨shape, hshape, hslot'⟩ := List.mem_filterMap.1 hslot
    have htidy := hspells.isTidy (Production.items_isReadable hreadable).2 shape hshape
    exact List.any_eq_true.2 ⟨entry.1, hslot, by simp [htidy.slot? hslot', hname]⟩
  obtain ⟨c, hnode, hwords, hd⟩ := Production.exists_derives hgoal hp hdescribed hspells hdemand
    (hderived' hderived)
  have htokens : Mark.tokens c.marks =
      Mark.tokens (Elements.marks (descriptionElements description ++ elements)) := by
    simpa [Mark.tokens, Function.comp_def] using congrArg (List.map Word.token) hwords
  have hbare' : Mark.Bare c.marks := by
    intro mark hmark
    have hmem := hwords ▸ List.mem_map_of_mem (f := Mark.word) hmark
    obtain ⟨mark', hmark', hword⟩ := List.mem_map.1 hmem
    exact hword ▸ hbare mark' hmark'
  exact ⟨c, hnode.trans (Production.node_form hreadable description hspells), by simp [htokens],
    hbare', hd⟩

/-- A type that doesn't admit null is one that does, and an exclamation mark. -/
theorem Goal.finds_nonNull {tokens : List Token} {contents : Contents}
    (h : Yields Found? (Form.ofKind .nonNullType).symbols tokens contents) :
    Goal.type.Finds tokens ((Form.ofKind .nonNullType).node contents) := by
  cases h with
  | child _ hinner h =>
    cases h with
    | punct _ h =>
      cases h
      obtain ⟨⟨c, rfl, rfl, hbare, hd⟩, hkind⟩ := hinner.2 rfl
      exact ⟨⟨_, _, _⟩, rfl, by simp, Mark.bare_append.2 ⟨hbare, by simp [Mark.Bare]⟩,
        .nonNull [] hd hkind⟩

/-- What follows the grammar has a derivation. -/
theorem Language.YieldsNode.found {n : Nonterminal} {tokens : List Token} {node : Node}
    (h : YieldsNode n tokens node) : Found? n tokens node := by
  refine h.induct (motive := Found?) fun {n form} hform {tokens contents} ih hadds => ⟨?_, ?_⟩
  · intro goal hn hgoal
    rcases Goal.exists_production hn hform with ⟨p, hp, rfl⟩ | ⟨rfl, rfl⟩
    · exact Production.finds hgoal hp ih hadds
    · exact Goal.finds_nonNull ih
  · rintro rfl
    have hform' : form ∈ forms .type ∧ form.kind ≠ .nonNullType := by
      simp only [forms, List.mem_cons, List.not_mem_nil, or_false] at hform ⊢
      rcases hform with rfl | rfl
      · exact ⟨.inl rfl, by decide⟩
      · exact ⟨.inr (.inl rfl), by decide⟩
    refine ⟨?_, hform'.2⟩
    rcases Goal.exists_production (show Goal.type.nonterminal? = _ from rfl) hform'.1 with
      ⟨p, hp, rfl⟩ | ⟨-, rfl⟩
    · exact Production.finds (by decide) hp ih hadds
    · exact absurd rfl hform'.2

end GraphQLTree
