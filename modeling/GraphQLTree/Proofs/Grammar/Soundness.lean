import GraphQLTree.Proofs.Grammar.Run

/-!
# Reading is sound

What a reader makes of the start of some lexemes has a derivation from just their words
(`Goal.read_sound`).
-/

namespace GraphQLTree

/-! ### Outcomes -/

namespace Outcome

variable {α β : Type}

theorem andThen_eq_done {outcome : Outcome α} {next : α → List Lexeme → Outcome β} {result : β}
    {rest : List Lexeme} (h : outcome.andThen next = .done result rest) :
    ∃ a l, outcome = .done a l ∧ next a l = .done result rest := by
  cases outcome with
  | done a l => exact ⟨a, l, rfl, h⟩
  | failed failure l => cases h
  | exhausted => cases h

theorem map_eq_done {outcome : Outcome α} {f : α → β} {result : β} {rest : List Lexeme}
    (h : outcome.map f = .done result rest) : ∃ a, outcome = .done a rest ∧ f a = result := by
  obtain ⟨a, l, ha, hl⟩ := andThen_eq_done h
  injection hl with hresult hrest
  exact ⟨a, hrest ▸ ha, hresult⟩

end Outcome

theorem takeToken_eq_done {accepts : Token → Bool} {failure : Failure}
    {lexemes rest : List Lexeme} {lexeme : Lexeme}
    (h : takeToken accepts failure lexemes = .done lexeme rest) :
    lexemes = lexeme :: rest ∧ accepts lexeme.token = true := by
  cases lexemes with
  | nil => cases h
  | cons l lexemes =>
    rw [takeToken] at h
    split at h
    · next ha =>
      injection h with hl hr
      exact ⟨by rw [hl, hr], hl ▸ ha⟩
    · cases h

/-- A token is not taken unless lexemes start with one that is accepted. -/
theorem takeToken_of_startsWith_eq_false {accepts : Token → Bool} {lexemes : List Lexeme}
    (h : startsWith accepts lexemes = false) (failure : Failure) :
    takeToken accepts failure lexemes = .failed failure lexemes := by
  cases lexemes with
  | nil => rfl
  | cons lexeme rest => exact if_neg (Bool.eq_false_iff.1 h)

/-- Nothing is skipped unless lexemes start with a delimiter. -/
theorem Draft.skipDelimiter_eq_self {delimiter : Punctuator} {lexemes : List Lexeme}
    (h : startsWith (· = .punct delimiter) lexemes = false) (draft : Draft) :
    draft.skipDelimiter delimiter lexemes = (draft, lexemes) := by
  cases lexemes with
  | nil => rfl
  | cons lexeme rest => exact if_neg (of_decide_eq_false h)

/-! ### Parts -/

/-- A token that is taken leads from a draft to the one with its comments and its gift. -/
private theorem exists_run_token {accepts : Token → Bool} {failure : Failure}
    {lexemes rest : List Lexeme} {f : Lexeme → Draft} (draft : Draft) {draft' : Draft}
    (h : (takeToken accepts failure lexemes).map f = .done draft' rest) (slot : Slot)
    (gift : Lexeme → Gift)
    (hatom : ∀ lexeme, accepts lexeme.token = true →
      (f lexeme).atom = (gift lexeme).atom?.getD draft.atom)
    (hentries : ∀ lexeme, (f lexeme).entries =
      draft.entries ++ (Node.ofComments slot lexeme.comments ++ (gift lexeme).entries)) :
    ∃ lexeme, accepts lexeme.token = true ∧
      Run [.own slot lexeme.word false (gift lexeme)] draft draft' lexemes rest := by
  obtain ⟨lexeme, hl, rfl⟩ := Outcome.map_eq_done h
  obtain ⟨rfl, hacc⟩ := takeToken_eq_done hl
  exact ⟨lexeme, hacc, .own lexeme rest slot false _ (hatom lexeme hacc) (hentries lexeme)⟩

/-- A token that is taken for its comments only is an own token. -/
private theorem exists_run_own {accepts : Token → Bool} {failure : Failure}
    {lexemes rest : List Lexeme} {draft draft' : Draft} {slot : Slot}
    (h : ((takeToken accepts failure lexemes).map fun lexeme =>
      draft.addComments slot lexeme.comments) = .done draft' rest)
    {token : Token} (haccepts : ∀ t, accepts t = true → t = token) :
    ∃ elements, Elements.shapes elements = [.own slot token false .nothing] ∧
      Run elements draft draft' lexemes rest := by
  obtain ⟨lexeme, hacc, hrun⟩ := exists_run_token draft h slot (fun _ => .nothing)
    (fun _ _ => rfl) (fun _ => by simp [Draft.addComments])
  refine ⟨[.own slot lexeme.word false .nothing], ?_, hrun⟩
  rw [Elements.shapes_cons, Element.shape, Lexeme.word, haccepts _ hacc]
  rfl

/-- A name that is read leads from a draft to the one with its comments and the name. -/
private theorem exists_run_name {kind : Kind} {draft draft' : Draft} {lexemes rest : List Lexeme}
    {slot : Slot} {rule : NameRule}
    (h : Part.read.readName kind draft lexemes slot rule = .done draft' rest) :
    ∃ text comments, rule.refuses? text = none ∧
      Run [.own .comments ⟨.name text, comments⟩ false (.name slot text)] draft draft' lexemes
        rest := by
  unfold Part.read.readName at h
  split at h
  · next text span comments l =>
    split at h
    · cases h
    · next hrefuse =>
      injection h with hd hr
      subst hd hr
      refine ⟨text, comments, hrefuse,
        .own ⟨.name text, span, comments⟩ l .comments false (.name slot text) rfl ?_⟩
      simp [Draft.addComments, Draft.add]
  · cases h

/-- Whether a reader of goals makes nodes that have derivations. -/
def ReadsSoundly (sub : Goal → List Lexeme → Outcome Node) : Prop :=
  ∀ goal lexemes node rest, goal.isReadable = true → sub goal lexemes = .done node rest →
    ∃ child : Child, child.node = node ∧ Takes child.marks lexemes rest ∧
      Derives goal child.marks child.pieces child.node

section Parts

variable {sub : Goal → List Lexeme → Outcome Node} (hsub : ReadsSoundly sub)
include hsub

/-- A child leads from a draft to the one with it. -/
theorem exists_run_child {goal : Goal} (hgoal : goal.isReadable = true) {draft : Draft}
    {lexemes rest : List Lexeme} {node : Node} (h : sub goal lexemes = .done node rest)
    (slot : Slot) :
    ∃ child, Run [.child slot goal child] draft (draft.add slot node) lexemes rest := by
  obtain ⟨child, rfl, htaken, hd⟩ := hsub goal lexemes node rest hgoal h
  exact ⟨child, .child hd htaken draft⟩

/-- Children that are read one after the other. -/
theorem readUntil_sound {goal : Goal} (hgoal : goal.isReadable = true)
    {stop : List Lexeme → Bool} {depth : Nat} {lexemes rest : List Lexeme} {nodes : List Node}
    (h : readUntil (sub goal) stop depth lexemes = .done nodes rest) :
    ∃ children : List Child, children.map Child.node = nodes ∧
      Takes (children.flatMap Child.marks) lexemes rest ∧
      ∀ child ∈ children, Derives goal child.marks child.pieces child.node := by
  induction depth generalizing lexemes nodes with
  | zero =>
    rw [readUntil] at h
    split at h
    · injection h with hn hr
      exact ⟨[], hn, ⟨[], hr, rfl⟩, by simp⟩
    · cases h
  | succ depth ih =>
    rw [readUntil] at h
    split at h
    · injection h with hn hr
      exact ⟨[], hn, ⟨[], hr, rfl⟩, by simp⟩
    · obtain ⟨node, l, hnode, hl⟩ := Outcome.andThen_eq_done h
      obtain ⟨nodes, hnodes, rfl⟩ := Outcome.map_eq_done hl
      obtain ⟨child, rfl, ⟨s, hs, hsw⟩, hd⟩ := hsub goal lexemes node l hgoal hnode
      obtain ⟨children, rfl, ⟨t, ht, htw⟩, hds⟩ := ih hnodes
      refine ⟨child :: children, rfl, ⟨s ++ t, by rw [hs, ht, List.append_assoc], ?_⟩, ?_⟩
      · simp [hsw, htw]
      · simpa [hd] using hds

omit hsub in
/-- Where no children are read the lexemes say to stop. -/
theorem readUntil_stops {sub : List Lexeme → Outcome Node} {stop : List Lexeme → Bool}
    {depth : Nat} {lexemes rest : List Lexeme}
    (h : readUntil sub stop depth lexemes = .done [] rest) : stop lexemes = true := by
  unfold readUntil at h
  split at h
  · assumption
  · split at h
    · cases h
    · obtain ⟨node, l, -, hl⟩ := Outcome.andThen_eq_done h
      obtain ⟨nodes, -, he⟩ := Outcome.map_eq_done hl
      cases he

/-- Children that are read with a delimiter between them. -/
theorem readSeparated_sound {goal : Goal} (hgoal : goal.isReadable = true)
    {delimiter : Punctuator} {depth : Nat} {lexemes rest : List Lexeme} {nodes : List Node}
    {comments : List Comment}
    (h : readSeparated (sub goal) delimiter depth lexemes = .done (nodes, comments) rest) :
    ∃ (first : Child) (others : List (Word × Child)),
      nodes = first.node :: others.map (·.2.node) ∧ comments = others.flatMap (·.1.comments) ∧
      (∀ next ∈ others, next.1.token = .punct delimiter) ∧
      Takes (first.marks ++ others.flatMap fun next => ⟨next.1, false⟩ :: next.2.marks) lexemes
        rest ∧
      Derives goal first.marks first.pieces first.node ∧
      ∀ next ∈ others, Derives goal next.2.marks next.2.pieces next.2.node := by
  induction depth generalizing lexemes nodes comments with
  | zero => cases h
  | succ depth ih =>
    rw [readSeparated] at h
    obtain ⟨node, l, hnode, hl⟩ := Outcome.andThen_eq_done h
    obtain ⟨first, rfl, ⟨s, hs, hsw⟩, hd⟩ := hsub goal lexemes node l hgoal hnode
    -- Where no delimiter follows, the first child is the only one. That is so at the end of the
    -- tokens and in front of any other token.
    have hlast (hl : Outcome.done ([first.node], []) l = .done (nodes, comments) rest) :
        ∃ (first : Child) (others : List (Word × Child)),
          nodes = first.node :: others.map (·.2.node) ∧ comments = others.flatMap (·.1.comments) ∧
          (∀ next ∈ others, next.1.token = .punct delimiter) ∧
          Takes (first.marks ++ others.flatMap fun next => ⟨next.1, false⟩ :: next.2.marks) lexemes
            rest ∧
          Derives goal first.marks first.pieces first.node ∧
          ∀ next ∈ others, Derives goal next.2.marks next.2.pieces next.2.node := by
      injection hl with hresult hrest
      injection hresult with hn hc
      exact ⟨first, [], hn.symm, hc.symm, by simp, ⟨s, hrest ▸ hs, by simp [hsw]⟩, hd, by simp⟩
    cases l with
    | nil => exact hlast hl
    | cons lexeme l =>
      simp only at hl
      split at hl
      · next htoken =>
        obtain ⟨⟨nodes', comments'⟩, hnodes, he⟩ := Outcome.map_eq_done hl
        injection he with hn hc
        obtain ⟨second, others, rfl, rfl, hdelim, ⟨t, ht, htw⟩, hd2, hds⟩ := ih hnodes
        refine ⟨first, (lexeme.word, second) :: others, hn.symm, hc.symm, ?_,
          ⟨s ++ lexeme :: t, by rw [hs, ht, List.append_assoc, List.cons_append], ?_⟩, hd, ?_⟩
        · simpa [Lexeme.word, htoken] using hdelim
        · simp [hsw, htw]
        · simpa [hd2] using hds
      · exact hlast hl

variable {depth : Nat} {kind : Kind}

/-- A list that is read spells the elements that it adds. -/
private theorem listed_sound {slot : Slot} {goal : Goal} (hgoal : goal.isReadable = true)
    {close : Punctuator} {allowEmpty : Bool} {draft draft' : Draft} {lexemes rest : List Lexeme}
    (h : (Part.listed slot goal close allowEmpty).read sub depth kind draft lexemes =
      .done draft' rest) :
    ∃ elements, (Part.listed slot goal close allowEmpty).Spells (Elements.shapes elements) ∧
      Run elements draft draft' lexemes rest := by
  simp only [Part.read] at h
  split at h
  · cases h
  · next hempty =>
    obtain ⟨nodes, hn, rfl⟩ := Outcome.map_eq_done h
    obtain ⟨children, rfl, htaken, hd⟩ := readUntil_sound hsub hgoal hn
    refine ⟨Element.listed slot goal (close = .braceClose) children, ?_, .listed hd htaken _ draft⟩
    rw [Element.shapes_listed]
    -- A list without children was closed at once, which its part must allow.
    refine .listed slot goal close allowEmpty _ fun hlen => ?_
    obtain rfl := List.length_eq_zero_iff.1 hlen
    have hstop : startsWith (· = .punct close) lexemes = true := readUntil_stops hn
    simpa [hstop] using hempty

/-- Children with delimiters between them that are read spell the elements that they add. -/
private theorem separated_sound {slot : Slot} (hslot : slot.holdsComments = false) {goal : Goal}
    (hgoal : goal.isReadable = true) {delimiter : Punctuator} {draft draft' : Draft}
    {lexemes rest : List Lexeme}
    (h : (Part.separated slot goal delimiter).read sub depth kind draft lexemes =
      .done draft' rest) :
    ∃ elements, (Part.separated slot goal delimiter).Spells (Elements.shapes elements) ∧
      Run elements draft draft' lexemes rest := by
  have hrun {draft draft' : Draft} {lexemes : List Lexeme}
      (h : ((readSeparated (sub goal) delimiter depth lexemes).map fun read =>
        (draft.addAll slot read.1).addComments .comments read.2) = .done draft' rest) :
      ∃ first others, Elements.shapes (Element.separated slot goal first others) =
          Shape.separated slot goal delimiter others.length ∧
        Run (Element.separated slot goal first others) draft draft' lexemes rest := by
    obtain ⟨⟨nodes, comments⟩, hn, rfl⟩ := Outcome.map_eq_done h
    obtain ⟨first, others, rfl, rfl, hdelim, htaken, hd, hds⟩ := readSeparated_sound hsub hgoal hn
    exact ⟨first, others, Element.shapes_separated slot goal first hdelim,
      .separated hslot hdelim hd hds htaken draft⟩
  simp only [Part.read] at h
  cases lexemes with
  | nil =>
    obtain ⟨first, others, hshapes, hrun⟩ := hrun h
    exact ⟨_, hshapes ▸ .separated slot goal delimiter _, hrun⟩
  | cons lexeme l =>
    simp only [Draft.skipDelimiter] at h
    split at h
    · next htoken =>
      obtain ⟨first, others, hshapes, hrun⟩ := hrun h
      -- A delimiter in front of the first child is a spare token.
      have hspare : Run _ draft (draft.addComments .comments lexeme.comments) _ l :=
        .own lexeme l .comments true .nothing rfl (by simp [Draft.addComments])
      refine ⟨_, ?_, hspare.append hrun⟩
      rw [Elements.shapes_append, hshapes, Elements.shapes_cons, Element.shape, Lexeme.word,
        htoken]
      exact .spared slot goal delimiter _
    · obtain ⟨first, others, hshapes, hrun⟩ := hrun h
      exact ⟨_, hshapes ▸ .separated slot goal delimiter _, hrun⟩

/-- Every part that is read spells the elements that it adds. -/
theorem Part.read_sound {part : Part} (hpart : part.isReadable = true) {draft draft' : Draft}
    {lexemes rest : List Lexeme}
    (h : part.read sub depth kind draft lexemes = .done draft' rest) :
    ∃ elements, part.Spells (Elements.shapes elements) ∧
      Run elements draft draft' lexemes rest := by
  have hask {slot : Slot} {goal : Goal} (hmem : (slot, goal) ∈ part.asks) :
      slot.holdsComments = false ∧ goal.isReadable = true :=
    isReadable_of_asks hpart hmem
  -- Each part has one way to succeed; what it adds to the draft tells the elements.
  cases part with
  | gap g =>
    injection h with hd hr
    subst hd hr
    exact ⟨[.space g.piece], .gap g, .space g.piece draft lexemes⟩
  | punct p =>
    obtain ⟨elements, hshapes, hrun⟩ := exists_run_own h fun _ ht => of_decide_eq_true ht
    exact ⟨elements, hshapes ▸ .punct p, hrun⟩
  | bracket p slot =>
    obtain ⟨elements, hshapes, hrun⟩ := exists_run_own h fun _ ht => of_decide_eq_true ht
    exact ⟨elements, hshapes ▸ .bracket p slot, hrun⟩
  | keyword k =>
    -- Keywords are names with a certain text.
    have hname (t : Token) (ht : (Terminal.keyword k).accepts t = true) : t = .name k.text := by
      simpa [Terminal.accepts] using ht
    obtain ⟨elements, hshapes, hrun⟩ := exists_run_own h hname
    exact ⟨elements, hshapes ▸ .keyword k, hrun⟩
  | name slot rule =>
    obtain ⟨text, comments, hrefuse, hrun⟩ := exists_run_name h
    exact ⟨[.own .comments ⟨.name text, comments⟩ false (.name slot text)],
      .name slot rule text hrefuse, hrun⟩
  | spacedName slot =>
    obtain ⟨text, comments, -, hrun⟩ := @exists_run_name _ _ _ _ _ _ .any h
    exact ⟨[.space .hard, .own .comments ⟨.name text, comments⟩ false (.name slot text)],
      .spacedName slot text, (Run.space .hard draft lexemes).append hrun⟩
  | literal l =>
    obtain ⟨lexeme, hacc, hrun⟩ := exists_run_token draft h .comments
      (fun lexeme => .atom ((l.read? lexeme.token).getD draft.atom))
      (fun _ _ => rfl) (fun _ => by simp [Draft.addComments])
    obtain ⟨atom, hatom⟩ := Option.isSome_iff_exists.1 hacc
    rw [hatom] at hrun
    exact ⟨[.own .comments lexeme.word false (.atom atom)], .literal l lexeme.token atom hatom,
      hrun⟩
  | child slot goal =>
    obtain ⟨node, hn, rfl⟩ := Outcome.map_eq_done h
    obtain ⟨child, hrun⟩ := exists_run_child hsub (hask (List.mem_singleton_self _)).2 hn slot
    exact ⟨[.child slot goal child], .child slot goal, hrun⟩
  | opened p slot goal =>
    simp only [Part.read] at h
    split at h
    · obtain ⟨node, hn, rfl⟩ := Outcome.map_eq_done h
      obtain ⟨child, hrun⟩ := exists_run_child hsub (hask (List.mem_singleton_self _)).2 hn slot
      exact ⟨[.child slot goal child], .opened p slot goal, hrun⟩
    · cases h
  | listed slot goal close allowEmpty =>
    exact listed_sound hsub (hask (List.mem_singleton_self _)).2 h
  | repeated slot goal start =>
    obtain ⟨nodes, hn, rfl⟩ := Outcome.map_eq_done h
    obtain ⟨children, rfl, htaken, hd⟩ :=
      readUntil_sound hsub (hask (List.mem_singleton_self _)).2 hn
    refine ⟨Element.repeated slot goal children, ?_, .repeated hd htaken draft⟩
    rw [Element.shapes_repeated]
    exact .repeated slot goal start _
  | separated slot goal delimiter =>
    obtain ⟨hslot, hgoal⟩ := hask (List.mem_singleton_self _)
    exact separated_sound hsub hslot hgoal h
  | juxtaposed slot => simp [isReadable, hasTidySlot] at hpart
  | demand p =>
    simp only [Part.read] at h
    split at h
    · injection h with hd hr
      subst hd hr
      exact ⟨[], .demand p, .nil draft lexemes⟩
    · cases h

/-- Parts that are read one after the other spell the elements that they add. -/
theorem readParts_sound {parts : List Part} (hparts : ∀ part ∈ parts, part.isReadable = true)
    {draft draft' : Draft} {lexemes rest : List Lexeme}
    (h : readParts sub depth kind parts draft lexemes = .done draft' rest) :
    ∃ elements, SpellParts parts (Elements.shapes elements) ∧
      Run elements draft draft' lexemes rest := by
  induction parts generalizing draft lexemes with
  | nil =>
    injection h with hd hr
    subst hd hr
    exact ⟨[], .nil, .nil draft lexemes⟩
  | cons part parts ih =>
    obtain ⟨d, l, hd, hl⟩ := Outcome.andThen_eq_done h
    obtain ⟨a, ha, hrun⟩ := Part.read_sound hsub (hparts part List.mem_cons_self) hd
    obtain ⟨b, hb, hrun'⟩ := ih (fun part hpart => hparts part (List.mem_cons_of_mem _ hpart)) hl
    exact ⟨a ++ b, Elements.shapes_append a b ▸ .cons ha hb, hrun.append hrun'⟩

theorem Item.read_sound {item : Item} (hitem : item.isReadable = true) {draft draft' : Draft}
    {lexemes rest : List Lexeme}
    (h : item.read sub depth kind draft lexemes = .done draft' rest) :
    ∃ elements, item.Spells (Elements.shapes elements) ∧
      Run elements draft draft' lexemes rest := by
  cases item with
  | part p =>
    obtain ⟨elements, hspells, hrun⟩ := Part.read_sound hsub hitem h
    exact ⟨elements, .part hspells, hrun⟩
  | group guard presence parts =>
    rw [Item.read] at h
    split at h
    · obtain ⟨elements, hspells, hrun⟩ := readParts_sound hsub (List.all_eq_true.1 hitem) h
      exact ⟨elements, .take guard presence hspells, hrun⟩
    · injection h with hd hr
      subst hd hr
      exact ⟨[], .skip guard presence parts, .nil draft lexemes⟩

/-- Items that are read one after the other spell the elements that they add. -/
theorem readItems_sound {items : List Item} (hitems : ∀ item ∈ items, item.isReadable = true)
    {draft draft' : Draft} {lexemes rest : List Lexeme}
    (h : readItems sub depth kind items draft lexemes = .done draft' rest) :
    ∃ elements, SpellItems items (Elements.shapes elements) ∧
      Run elements draft draft' lexemes rest ∧
      ((items.any fun item => item matches .part (.demand _)) = true →
        draft'.hasParts = true) := by
  induction items generalizing draft lexemes with
  | nil =>
    injection h with hd hr
    subst hd hr
    exact ⟨[], .nil, .nil draft lexemes, by simp⟩
  | cons item items ih =>
    obtain ⟨d, l, hd, hl⟩ := Outcome.andThen_eq_done h
    obtain ⟨a, ha, hrun⟩ := Item.read_sound hsub (hitems item List.mem_cons_self) hd
    obtain ⟨b, hb, hrun', hdemand⟩ :=
      ih (fun item hitem => hitems item (List.mem_cons_of_mem _ hitem)) hl
    refine ⟨a ++ b, Elements.shapes_append a b ▸ .cons ha hb, hrun.append hrun', fun hany => ?_⟩
    rw [List.any_cons, Bool.or_eq_true] at hany
    rcases hany with hitem | hany
    · refine hrun'.hasParts ?_
      split at hitem
      · rw [Item.read, Part.read] at hd
        split at hd
        · next hparts =>
          injection hd with hd
          rwa [← hd]
        · cases hd
      · cases hitem
    · exact hdemand hany

end Parts

/-! ### Nodes -/

/-- The elements of an item for a description. -/
theorem Elements.exists_description {a : List Element}
    (h : Item.description.Spells (Elements.shapes a)) :
    a = [] ∨ ∃ c, a = [.child .description (.kind .stringValue) c] := by
  rcases Item.Spells.of_group h with h | h
  · exact .inl (List.map_eq_nil_iff.1 h)
  · obtain ⟨b, c, hbc, hb, hc⟩ := h.exists_append
    obtain rfl := hc.eq_nil
    cases hb
    exact .inr (Elements.eq_child_of_shapes hbc)

/-- What a production reads has elements. -/
private theorem Production.read_elements {sub : Goal → List Lexeme → Outcome Node}
    (hsub : ReadsSoundly sub) {depth : Nat} {p : Production} (hp : p.isReadable = true)
    {lexemes rest : List Lexeme} {node : Node} (h : p.read sub depth lexemes = .done node rest) :
    ∃ (description : Option Child) (elements : List Element) (draft : Draft),
      (description.isSome = true → p.rule.described = true) ∧
      SpellItems p.rule.items (Elements.shapes elements) ∧
      (p.demands = true → Shape.hasParts (Elements.shapes elements) = true) ∧
      Run (descriptionElements description ++ elements) ⟨p.rule.start, []⟩ draft lexemes rest ∧
      node = p.finish (descriptionElements description ++ elements) := by
  have hitems := (Production.items_isReadable hp).2
  obtain ⟨draft, hdraft, rfl⟩ := Outcome.map_eq_done h
  cases hdescribed : p.rule.described with
  | false =>
    rw [Production.items, hdescribed, if_neg (by simp)] at hdraft
    obtain ⟨elements, hspells, hrun, hdemand⟩ := readItems_sound hsub hitems hdraft
    exact ⟨none, elements, draft, by simp, hspells,
      fun hd => hasParts_shapes hp hspells hrun (hdemand hd), hrun, hrun.finish⟩
  | true =>
    have hnone : p.demands = false := by
      have := Production.check (fun p => !p.rule.described || !p.demands) (by decide) p
      simpa [hdescribed] using this
    rw [Production.items, hdescribed, if_pos rfl, readItems] at hdraft
    obtain ⟨d, l, hd, hl⟩ := Outcome.andThen_eq_done hdraft
    obtain ⟨a, ha, hrun⟩ := Item.read_sound hsub (by decide) hd
    obtain ⟨elements, hspells, hrun', -⟩ := readItems_sound hsub hitems hl
    have hbreak := Run.space (.lines 0 1) d l
    rcases Elements.exists_description ha with rfl | ⟨c, rfl⟩
    · exact ⟨none, elements, draft, by simp, hspells, by simp [hnone], hrun.append hrun',
        (hrun.append hrun').finish⟩
    · have hrun := (hrun.append hbreak).append hrun'
      exact ⟨some c, elements, draft, by simp, hspells, by simp [hnone], hrun, hrun.finish⟩

theorem Literal.token_of_query {token : Token}
    (h : Literal.operation.read? token = some (.operation .query)) :
    token = .name Keyword.query.text := by
  cases token with
  | name text =>
    obtain ⟨operation, hfind, he⟩ := Option.map_eq_some_iff.1 h
    obtain rfl : operation = .query := by simpa using he
    have htext := List.find?_some hfind
    exact congrArg Token.name (eq_of_beq htext).symm
  | _ => cases h

/-- The shapes of a query that is nothing but a selection set, with its keyword. -/
theorem shapes_of_isShorthand {shapes : List Shape}
    (hspells : SpellItems (Rule.ofKind .operationDefinition).items shapes)
    (h : Shape.isShorthand shapes = true) :
    shapes = [.own .comments (.name Keyword.query.text) false (.atom (.operation .query)),
      .space .soft, .child .selectionSet (.kind .selectionSet)] := by
  -- The six items of the rule: operation, name, variables, directives, space and selection set.
  obtain ⟨a₁, s₁, rfl, h₁, hspells⟩ := hspells.exists_append
  obtain ⟨a₂, s₂, rfl, h₂, hspells⟩ := hspells.exists_append
  obtain ⟨a₃, s₃, rfl, h₃, hspells⟩ := hspells.exists_append
  obtain ⟨a₄, s₄, rfl, h₄, hspells⟩ := hspells.exists_append
  obtain ⟨a₅, s₅, rfl, h₅, hspells⟩ := hspells.exists_append
  obtain ⟨a₆, s₆, rfl, h₆, hspells⟩ := hspells.exists_append
  obtain rfl := hspells.eq_nil
  simp only [Shape.isShorthand, GraphQLTree.isShorthand, Bool.and_eq_true, decide_eq_true_eq,
    Bool.not_eq_true', List.contains_eq_mem, decide_eq_false_iff_not] at h
  obtain ⟨⟨⟨hatom, hname⟩, hvariables⟩, hdirectives⟩ := h
  -- The three in the middle are empty, as the shapes have none of their slots.
  obtain rfl : a₂ = [] := by
    rcases h₂.of_group with h₂ | h₂
    · exact h₂
    · obtain ⟨b, c, rfl, hb, -⟩ := h₂.exists_append
      cases hb
      simp [Shape.slots, Shape.slot?] at hname
  obtain rfl : a₃ = [] := by
    rcases h₃.of_group with h₃ | h₃
    · exact h₃
    · obtain ⟨b, c, rfl, hb, -⟩ := h₃.exists_append
      cases hb
      simp [Shape.slots, Shape.slot?] at hvariables
  obtain rfl : a₄ = [] := by
    cases h₄.of_part with
    | repeated slot goal start n =>
      cases n with
      | zero => rfl
      | succ n => simp [Shape.slots, Shape.slot?, Shape.repeated, Shape.times] at hdirectives
  cases h₅.of_part
  cases h₆.of_part
  cases h₁.of_part with
  | literal l token atom hread =>
    obtain rfl : atom = .operation .query := by simpa [Shape.atom?] using hatom
    rw [Literal.token_of_query hread]
    rfl

/-- The elements of a query that is nothing but a selection set. -/
private theorem Elements.eq_query_of_shapes {elements : List Element}
    (h : shapes elements = [.own .comments (.name Keyword.query.text) false
      (.atom (.operation .query)), .space .soft, .child .selectionSet (.kind .selectionSet)]) :
    ∃ comments c, elements = [.own .comments ⟨.name Keyword.query.text, comments⟩ false
      (.atom (.operation .query)), .space .soft,
      .child .selectionSet (.kind .selectionSet) c] := by
  obtain ⟨own, rest, rfl, hown, h⟩ := List.map_eq_cons_iff.1 h
  obtain ⟨space, rest, rfl, hspace, h⟩ := List.map_eq_cons_iff.1 h
  obtain ⟨c, rfl⟩ := Elements.eq_child_of_shapes h
  cases own with
  | own slot word spare gift =>
    cases space with
    | space piece =>
      cases word
      cases hown
      cases hspace
      exact ⟨_, c, rfl⟩
    | _ => cases hspace
  | _ => cases hown

/-- The node of a query that is nothing but a selection set. -/
theorem Production.finish_query (comments : List Comment) (token : Token) (c : Child) :
    (Production.of .operationDefinition).finish
        [.own .comments ⟨token, comments⟩ false (.atom (.operation .query)), .space .soft,
          .child .selectionSet (.kind .selectionSet) c] =
      .mk .operationDefinition (.operation .query)
        (Node.ofComments .comments comments ++ [(.selectionSet, c.node)]) := by
  have hcomments (slot : Slot) (h : Slot.comments ≠ slot) :
      (Node.ofComments .comments comments).filter (fun entry => entry.1 = slot) = [] :=
    entriesIn_ofComments_of_ne h comments
  have hown : (Node.ofComments .comments comments).filter (fun entry => entry.1 = .comments) =
      Node.ofComments .comments comments := entriesIn_ofComments .comments comments
  simp [Production.finish, Production.kind, Node.arrange, Kind.fields, Field.comments,
    Field.optional, Field.list, Field.one, Field.directives, Shape.atom?, hcomments,
    hown]

/-- Elements that a production spells have a derivation, of a query if they are nothing but its keyword
and a selection set. -/
theorem Production.exists_derives {goal : Goal} (hgoal : goal.isReadable = true) {p : Production}
    (hp : p ∈ goal.productions) {description : Option Child} {elements : List Element}
    (hdescribed : description.isSome = true → p.rule.described = true)
    (hspells : SpellItems p.rule.items (Elements.shapes elements))
    (hdemand : p.demands = true → Shape.hasParts (Elements.shapes elements) = true)
    (hderived : ∀ element ∈ descriptionElements description ++ elements, element.Derived) :
    ∃ child : Child, child.node = p.finish (descriptionElements description ++ elements) ∧
      child.marks.map Mark.word =
        (Elements.marks (descriptionElements description ++ elements)).map Mark.word ∧
      Derives goal child.marks child.pieces child.node := by
  by_cases hquery : p = .of .operationDefinition ∧ Shape.isShorthand (Elements.shapes elements) = true
  · obtain ⟨rfl, hshorthand⟩ := hquery
    obtain rfl : description = none := by
      cases description with
      | none => rfl
      | some c => cases hdescribed rfl
    obtain ⟨comments, c, rfl⟩ :=
      Elements.eq_query_of_shapes (shapes_of_isShorthand hspells hshorthand)
    rw [descriptionElements, List.nil_append, finish_query]
    refine ⟨⟨queryMark comments :: c.marks, leadingPieces comments ++ c.pieces, _⟩, rfl, ?_, ?_⟩
    · simp [queryMark]
    · exact .query comments hp (Goal.shorthand_mem hgoal hp)
        (hderived (.child .selectionSet (.kind .selectionSet) c) (by simp))
  · refine ⟨⟨_, _, _⟩, rfl, rfl, .production hp (Goal.isReadable_of_mem hgoal hp) hdescribed hspells
      hdemand ?_ ?_ ?_⟩
    · rintro rfl
      simpa using hquery
    · rintro c rfl
      exact hderived _ (List.mem_append_left _ List.mem_cons_self)
    · exact fun slot subgoal c hc => hderived _ (List.mem_append_right _ hc)

/-- What a production reads has a derivation. -/
theorem Production.read_sound {sub : Goal → List Lexeme → Outcome Node}
    (hsub : ReadsSoundly sub) {depth : Nat} {goal : Goal} (hgoal : goal.isReadable = true)
    {p : Production} (hp : p ∈ goal.productions) {lexemes rest : List Lexeme} {node : Node}
    (h : p.read sub depth lexemes = .done node rest) :
    ∃ child : Child, child.node = node ∧ Takes child.marks lexemes rest ∧
      Derives goal child.marks child.pieces child.node := by
  obtain ⟨description, elements, draft, hdescribed, hspells, hdemand, hrun, rfl⟩ :=
    read_elements hsub (Goal.isReadable_of_mem hgoal hp) h
  obtain ⟨child, hnode, hmarks, hd⟩ :=
    exists_derives hgoal hp hdescribed hspells hdemand hrun.derived
  exact ⟨child, hnode, hrun.taken.congr hmarks.symm, hd⟩

theorem Production.kind_of_read {sub : Goal → List Lexeme → Outcome Node} {depth : Nat}
    {p : Production} {lexemes rest : List Lexeme} {node : Node}
    (h : p.read sub depth lexemes = .done node rest) : node.kind = p.kind := by
  obtain ⟨draft, -, rfl⟩ := Outcome.map_eq_done h
  rfl

/-- The production that is chosen for a goal is one that it may be derived by. -/
theorem Goal.choose_mem {goal : Goal} {first second : Option Token} {p : Production}
    (h : goal.choose first second = .take p) : p ∈ goal.productions := by
  cases goal with
  | production q =>
    cases h
    exact List.mem_singleton_self p
  | operation =>
    simp only [choose] at h
    split at h <;> cases h <;> decide
  | inputValues =>
    simp only [choose] at h
    split at h <;> cases h <;> decide
  | value family =>
    cases family <;> simp only [choose, Choice.value] at h <;> split at h <;> (try split at h) <;>
      cases h <;> decide
  | selection =>
    simp only [choose, Choice.selection] at h
    split at h <;> (try split at h) <;> cases h <;> decide
  | type =>
    simp only [choose, Choice.type] at h
    split at h <;> cases h <;> decide
  | directiveLocation =>
    simp only [choose, Choice.directiveLocation] at h
    split at h <;> (try split at h) <;> (try split at h) <;> cases h <;> decide
  | definition =>
    -- A definition of the type system is chosen by its keyword, in each of its three roles.
    have htype {role : Role} {token : Option Token} {other : Choice}
        (hother : ∀ p, other ≠ .take p)
        (h : (Choice.typeSystem? role token).getD other = .take p) :
        p ∈ definition.productions := by
      cases hchoice : Choice.typeSystem? role token with
      | none => exact absurd (by simpa [hchoice] using h) (hother p)
      | some choice =>
        obtain ⟨t, -, k, -, kind, hkind, rfl⟩ := by
          simpa [Choice.typeSystem?, Option.bind_eq_some_iff] using hchoice
        rw [hchoice] at h
        cases h
        revert hkind
        cases role <;> cases k <;> simp [Choice.typeSystemKind?] <;> rintro rfl <;> decide
    simp only [choose, Choice.definition, Choice.definition.described] at h
    split at h
    · cases h; decide
    · exact htype (by simp) h
    · exact htype (by simp) h
    · split at h
      · cases h; decide
      · cases h; decide
      · cases h; decide
      · cases h; decide
      · exact htype (by simp) h
      · exact htype (by simp) h
    · cases h

/-- A type may have an exclamation mark behind it. -/
private theorem Goal.wrapType_sound {c : Child}
    (hd : Derives .type c.marks c.pieces c.node) (hkind : c.node.kind ≠ .nonNullType)
    {lexemes l rest : List Lexeme} {node : Node}
    (htaken : Takes c.marks lexemes l)
    (h : wrapType c.node l = .done node rest) :
    ∃ child : Child, child.node = node ∧ Takes child.marks lexemes rest ∧
      Derives .type child.marks child.pieces child.node := by
  obtain ⟨taken, rfl, hw⟩ := htaken
  unfold wrapType at h
  split at h
  · next span comments l =>
    injection h with hnode hrest
    subst hnode hrest
    refine ⟨⟨_, _, _⟩, rfl, ⟨taken ++ [⟨.punct .exclamation, span, comments⟩], by simp, ?_⟩,
      .nonNull comments hd hkind⟩
    simp [hw, Lexeme.word]
  · injection h with hnode hrest
    subst hnode hrest
    exact ⟨c, rfl, ⟨taken, rfl, hw⟩, hd⟩

/-- What a goal reads has a derivation from just the words that are read. -/
theorem Goal.read_sound (depth : Nat) : ReadsSoundly (Goal.read depth) := by
  induction depth with
  | zero => intro goal lexemes node rest _ h; cases h
  | succ depth ih =>
    intro goal lexemes node rest hgoal h
    rw [Goal.read] at h
    split at h
    · cases h
    · next p hp =>
      have hp := Goal.choose_mem hp
      simp only at h
      split at h
      · next htype =>
        subst htype
        obtain ⟨node', l, hnode, hwrap⟩ := Outcome.andThen_eq_done h
        obtain ⟨c, rfl, htaken, hd⟩ := Production.read_sound ih hgoal hp hnode
        have hkind : c.node.kind ≠ .nonNullType := by
          rw [Production.kind_of_read hnode]
          have htypes : ∀ p ∈ type.productions, p.kind ≠ .nonNullType := by decide
          exact htypes p hp
        exact wrapType_sound hd hkind htaken hwrap
      · exact Production.read_sound ih hgoal hp h

end GraphQLTree
