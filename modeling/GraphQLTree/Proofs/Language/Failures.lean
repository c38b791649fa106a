import GraphQLTree.Proofs.Grammar.Rest
import GraphQLTree.Proofs.Language.Sound
import GraphQLTree.Proofs.Language.Viable

/-!
# Failing readers leave viable tokens behind

What a reader has taken when it fails is viable for what it was reading (`Goal.read_viable`): the part that
it failed at can be filled in, and so can everything behind it. A reader doesn't take a token that nothing
can go on with.
-/

namespace GraphQLTree

open Language

/-! ### Outcomes -/

namespace Outcome

variable {α β : Type}

theorem andThen_eq_failed {outcome : Outcome α} {next : α → List Lexeme → Outcome β}
    {failure : Failure} {rest : List Lexeme} (h : outcome.andThen next = .failed failure rest) :
    outcome = .failed failure rest ∨ ∃ a l, outcome = .done a l ∧ next a l = .failed failure rest := by
  cases outcome with
  | done a l => exact .inr ⟨a, l, rfl, h⟩
  | failed failure l =>
    injection h with hf hr
    exact .inl (by rw [hf, hr])
  | exhausted => cases h

theorem map_eq_failed {outcome : Outcome α} {f : α → β} {failure : Failure} {rest : List Lexeme}
    (h : outcome.map f = .failed failure rest) : outcome = .failed failure rest := by
  rcases andThen_eq_failed h with h | ⟨a, l, -, h⟩
  · exact h
  · cases h

end Outcome

/-! ### Tokens that are taken -/

/-- Whether lexemes have no comments. -/
def Lexeme.AllBare (lexemes : List Lexeme) : Prop :=
  ∀ lexeme ∈ lexemes, lexeme.comments = []

theorem Between.bare {lexemes rest : List Lexeme} {P : List Token → Prop} (h : Between lexemes rest P)
    (hbare : Lexeme.AllBare lexemes) : Lexeme.AllBare rest := by
  obtain ⟨taken, rfl, -⟩ := h
  exact fun lexeme hl => hbare lexeme (List.mem_append_right _ hl)

/-- A punctuator that is taken. -/
theorem between_punct {lexeme : Lexeme} {p : Punctuator} (h : lexeme.token = .punct p)
    {rest : List Lexeme} : Between (lexeme :: rest) rest (Generates [.punct p]) := by
  have hpunct : Generates [.punct p] [.punct p] := ⟨_, .punct p .nil⟩
  exact ⟨[lexeme], rfl, by rwa [List.map_singleton, h]⟩

/-- Words that are taken from lexemes without comments have none. -/
theorem Takes.between {marks : List Mark} {lexemes rest : List Lexeme} (h : Takes marks lexemes rest)
    (hbare : Lexeme.AllBare lexemes) :
    Mark.Bare marks ∧ Between lexemes rest fun tokens => tokens = Mark.tokens marks := by
  obtain ⟨taken, rfl, hwords⟩ := h
  refine ⟨fun mark hmark => ?_, taken, rfl, ?_⟩
  · have hmem := hwords ▸ List.mem_map_of_mem (f := Mark.word) hmark
    obtain ⟨lexeme, hlexeme, hword⟩ := List.mem_map.1 hmem
    rw [← hword]
    exact hbare lexeme (List.mem_append_left _ hlexeme)
  · simpa [Mark.tokens, Function.comp_def, Lexeme.word] using congrArg (List.map Word.token) hwords

/-- A token that isn't taken is left. -/
theorem takeToken_eq_failed {accepts : Token → Bool} {failure failure' : Failure}
    {lexemes rest : List Lexeme} (h : takeToken accepts failure' lexemes = .failed failure rest) :
    rest = lexemes := by
  unfold takeToken at h
  split at h
  · split at h
    · cases h
    · injection h with _ hr
      exact hr.symm
  · injection h with _ hr
    exact hr.symm

/-- What isn't read as a name is left. -/
theorem Part.readName_eq_failed {kind : Kind} {draft : Draft} {failure : Failure}
    {lexemes rest : List Lexeme} {slot : Slot} {rule : NameRule}
    (h : Part.read.readName kind draft lexemes slot rule = .failed failure rest) :
    rest = lexemes := by
  unfold Part.read.readName at h
  split at h
  · split at h
    · injection h with _ hr
      exact hr.symm
    · cases h
  · injection h with _ hr
    exact hr.symm

/-- Whether readers of goals leave viable tokens behind where they fail. -/
def FailsViably (sub : Goal → List Lexeme → Outcome Node) : Prop :=
  ∀ goal lexemes failure rest, goal.isReadable = true → goal.isProductive = true →
    Lexeme.AllBare lexemes → sub goal lexemes = .failed failure rest →
    Between lexemes rest (ViableNode goal.nonterminal)

section Parts

variable {sub : Goal → List Lexeme → Outcome Node} (hsub : ReadsSoundly sub)
  {lexemes rest : List Lexeme} (hbare : Lexeme.AllBare lexemes)
include hsub hbare

/-! ### What is read -/

/-- A child that is read. -/
theorem ReadsSoundly.generates {goal : Goal} (hgoal : goal.isReadable = true)
    (hproductive : goal.isProductive = true) {node : Node} (h : sub goal lexemes = .done node rest)
    (slot : Slot) : Between lexemes rest (Generates [.child slot goal.nonterminal]) := by
  obtain ⟨c, -, htaken, hd⟩ := hsub goal lexemes node rest hgoal h
  obtain ⟨hmarks, hbetween⟩ := htaken.between hbare
  have hchild := generates_child (hd.yields hmarks (Goal.viable_nil hproductive).1) slot
  exact hbetween.imp fun tokens htokens => htokens ▸ hchild

variable {depth : Nat} {kind : Kind}

/-- An item that is read. -/
theorem Item.generates_of_read {item : Item} (hitem : item.isReadable = true)
    (hproductive : item.isProductive = true) {draft draft' : Draft}
    (h : item.read sub depth kind draft lexemes = .done draft' rest) :
    Between lexemes rest (Generates item.symbols) := by
  obtain ⟨elements, hspells, hrun⟩ := Item.read_sound hsub hitem h
  obtain ⟨hmarks, hbetween⟩ := hrun.taken.between hbare
  have hspells : SpellItems [item] (Elements.shapes elements) := by
    simpa using SpellItems.cons hspells .nil
  have hyielded (element : Element) (he : element ∈ elements) : element.Yielded := by
    cases element with
    | child slot goal c =>
      obtain ⟨part, hpart, hasks⟩ := hspells.makes _ (List.mem_map_of_mem he)
      have hpart := List.all_eq_true.1 hproductive part (by simpa using hpart)
      have hc : Mark.Bare c.marks := fun mark hmark =>
        hmarks mark (List.mem_flatMap.2 ⟨.child slot goal c, he, hmark⟩)
      exact Derives.yields (hrun.derived _ he) hc (Part.viable_of_asks hpart hasks).1
    | _ => trivial
  have hyields := hspells.yields hmarks hyielded
  rw [List.flatMap_cons, List.flatMap_nil, List.append_nil] at hyields
  exact hbetween.imp fun tokens htokens => ⟨_, htokens ▸ hyields⟩

/-! ### What fails -/

variable (hfails : FailsViably sub) {failure : Failure}
include hfails

/-- Children one after the other that fail, of which there is one at least. -/
theorem readUntil_viable {goal : Goal} (hgoal : goal.isReadable = true)
    (hproductive : goal.isProductive = true) {stop : List Lexeme → Bool}
    (h : readUntil (sub goal) stop depth lexemes = .failed failure rest) (slot : Slot) :
    Between lexemes rest (Viable [.child slot goal.nonterminal, .many slot goal.nonterminal]) := by
  have hmany : Generates [.many slot goal.nonterminal] [] := ⟨_, .none _ _ .nil⟩
  induction depth generalizing lexemes with
  | zero =>
    rw [readUntil] at h
    split at h <;> cases h
  | succ depth ih =>
    rw [readUntil] at h
    split at h
    · cases h
    · rcases Outcome.andThen_eq_failed h with h | ⟨node, l, hnode, h⟩
      · have hchild := hfails goal lexemes failure rest hgoal hproductive hbare h
        exact hchild.imp fun tokens hn => (hn.child slot).append hmany.viable
      · have hchild := hsub.generates hbare hgoal hproductive hnode slot
        have hlater := ih (hchild.bare hbare) (Outcome.map_eq_failed h)
        exact hchild.append hlater fun s t hs ht => hs.viable_append (ht.imp .more)

/-- Children with a delimiter between them that fail, of which there is one at least. -/
theorem readSeparated_viable {goal : Goal} (hgoal : goal.isReadable = true)
    (hproductive : goal.isProductive = true) {delimiter : Punctuator}
    (h : readSeparated (sub goal) delimiter depth lexemes = .failed failure rest) (slot : Slot) :
    Between lexemes rest
      (Viable [.child slot goal.nonterminal, .delimited slot goal.nonterminal delimiter]) := by
  have hlast : Generates [.delimited slot goal.nonterminal delimiter] [] := ⟨_, .last _ _ _ .nil⟩
  induction depth generalizing lexemes with
  | zero => cases h
  | succ depth ih =>
    rw [readSeparated] at h
    rcases Outcome.andThen_eq_failed h with h | ⟨node, l, hnode, h⟩
    · have hchild := hfails goal lexemes failure rest hgoal hproductive hbare h
      exact hchild.imp fun tokens hn => (hn.child slot).append hlast.viable
    · have hchild := hsub.generates hbare hgoal hproductive hnode slot
      cases l with
      | nil => cases h
      | cons lexeme l =>
        simp only at h
        split at h
        · next htoken =>
          have hdelimiter : Between (lexeme :: l) l _ := between_punct htoken
          have hlater := ih (hdelimiter.bare (hchild.bare hbare)) (Outcome.map_eq_failed h)
          have hothers := hdelimiter.append hlater fun s t hs ht => (hs.viable_append ht).imp .next
          exact hchild.append hothers fun s t hs ht => hs.viable_append ht
        · cases h

/-- Children with a delimiter between them, and perhaps one in front of them, that fail. -/
private theorem separated_viable {slot : Slot} {goal : Goal} (hgoal : goal.isReadable = true)
    (hproductive : goal.isProductive = true) {delimiter : Punctuator} {draft : Draft}
    (h : (Part.separated slot goal delimiter).read sub depth kind draft lexemes =
      .failed failure rest) :
    Between lexemes rest (Viable (Part.separated slot goal delimiter).symbols) := by
  have hseparated {l : List Lexeme} (hbare : Lexeme.AllBare l) {f : List Node × List Comment → Draft}
      (h : (readSeparated (sub goal) delimiter depth l).map f = .failed failure rest) :=
    readSeparated_viable hsub hbare hfails hgoal hproductive (Outcome.map_eq_failed h) slot
  cases lexemes with
  | nil => exact (hseparated hbare h).imp fun tokens hviable => hviable.imp .separated
  | cons lexeme l =>
    simp only [Part.read, Draft.skipDelimiter] at h
    split at h
    · next htoken =>
      have hdelimiter : Between (lexeme :: l) l _ := between_punct htoken
      exact hdelimiter.append (hseparated (hdelimiter.bare hbare) h) fun s t hs ht =>
        (hs.viable_append ht).imp .leading
    · exact (hseparated hbare h).imp fun tokens hviable => hviable.imp .separated

/-- A part that fails. -/
theorem Part.read_viable {part : Part} (hpart : part.isReadable = true)
    (hproductive : part.isProductive = true) {draft : Draft}
    (h : part.read sub depth kind draft lexemes = .failed failure rest) :
    Between lexemes rest (Viable part.symbols) := by
  have hnil : Viable part.symbols [] :=
    Item.viable_nil_of_isProductive (show (Item.part part).isProductive = true by
      simpa [Item.isProductive, Item.parts] using hproductive)
  have hgoal {ask : Slot × Goal} (hask : ask ∈ part.asks) :
      ask.2.isReadable = true ∧ ask.2.isProductive = true :=
    ⟨(isReadable_of_asks hpart hask).2, List.all_eq_true.1 hproductive _ hask⟩
  -- A part that reads a token fails in front of it, so that nothing has been taken.
  have hnothing (hrest : rest = lexemes) : Between lexemes rest (Viable part.symbols) :=
    hrest ▸ .nil hnil
  -- A part that reads children fails inside one of them.
  have hchild {slot : Slot} {goal : Goal} (hask : (slot, goal) ∈ part.asks) {f : Node → Draft}
      (h : (sub goal lexemes).map f = .failed failure rest) :
      Between lexemes rest (Viable [.child slot goal.nonterminal]) :=
    (hfails goal lexemes failure rest (hgoal hask).1 (hgoal hask).2 hbare
      (Outcome.map_eq_failed h)).imp fun tokens hn => hn.child slot
  have hchildren {slot : Slot} {goal : Goal} (hask : (slot, goal) ∈ part.asks)
      {stop : List Lexeme → Bool} {f : List Node → Draft}
      (h : (readUntil (sub goal) stop depth lexemes).map f = .failed failure rest) :
      Between lexemes rest (Viable [.child slot goal.nonterminal, .many slot goal.nonterminal]) :=
    readUntil_viable hsub hbare hfails (hgoal hask).1 (hgoal hask).2 (Outcome.map_eq_failed h) slot
  cases part with
  | gap g => cases h
  | punct p => exact hnothing (takeToken_eq_failed (Outcome.map_eq_failed h))
  | bracket p slot => exact hnothing (takeToken_eq_failed (Outcome.map_eq_failed h))
  | keyword k => exact hnothing (takeToken_eq_failed (Outcome.map_eq_failed h))
  | name slot rule => exact hnothing (readName_eq_failed h)
  | spacedName slot => exact hnothing (@readName_eq_failed _ _ _ _ _ _ .any h)
  | literal l => exact hnothing (takeToken_eq_failed (Outcome.map_eq_failed h))
  | child slot goal => exact hchild (List.mem_singleton_self _) h
  | opened p slot goal =>
    rw [Part.read] at h
    split at h
    · exact hchild (List.mem_singleton_self _) h
    · injection h with _ hr
      exact hnothing hr.symm
  | listed slot goal close allowEmpty =>
    rw [Part.read] at h
    split at h
    · injection h with _ hr
      exact hnothing hr.symm
    · refine (hchildren (List.mem_singleton_self _) h).imp fun tokens hviable => ?_
      cases allowEmpty with
      | true => exact hviable.imp .more
      | false => exact hviable.imp .some
  | repeated slot goal start =>
    exact (hchildren (List.mem_singleton_self _) h).imp fun tokens hviable => hviable.imp .more
  | separated slot goal delimiter =>
    obtain ⟨hreadable, hproductive⟩ := hgoal (List.mem_singleton_self (slot, goal))
    exact separated_viable hsub hbare hfails hreadable hproductive h
  | juxtaposed slot => cases h
  | demand p =>
    rw [Part.read] at h
    split at h
    · cases h
    · injection h with _ hr
      exact hnothing hr.symm

omit hfails in
/-- Items that fail one after the other, if each one leaves viable tokens behind where it fails. -/
theorem readItems_viable_of_items {items : List Item} (hitems : ∀ item ∈ items,
      item.isReadable = true ∧ item.isProductive = true ∧ ∀ {draft : Draft} {l : List Lexeme},
        Lexeme.AllBare l → item.read sub depth kind draft l = .failed failure rest →
        Between l rest (Viable item.symbols))
    {draft : Draft} (h : readItems sub depth kind items draft lexemes = .failed failure rest) :
    Between lexemes rest (Viable (items.flatMap Item.symbols)) := by
  induction items generalizing draft lexemes with
  | nil => cases h
  | cons item items ih =>
    obtain ⟨⟨hreadable, hproductive, hitem⟩, hitems⟩ := List.forall_mem_cons.1 hitems
    rw [List.flatMap_cons]
    rcases Outcome.andThen_eq_failed h with h | ⟨d, l, hd, h⟩
    · -- What is behind the item that fails can be filled in.
      have hnil := viable_nil_items fun i hi => Item.viable_nil_of_isProductive (hitems i hi).2.1
      exact (hitem hbare h).imp fun tokens hviable => hviable.append hnil
    · have hdone := Item.generates_of_read hsub hbare hreadable hproductive hd
      exact hdone.append (ih (hdone.bare hbare) hitems h) fun s t hs ht => hs.viable_append ht

omit hsub hbare hfails in
/-- Parts are items. -/
theorem readParts_eq (parts : List Part) (draft : Draft) (lexemes : List Lexeme) :
    readParts sub depth kind parts draft lexemes =
      readItems sub depth kind (parts.map .part) draft lexemes := by
  induction parts generalizing draft lexemes with
  | nil => rfl
  | cons part parts ih =>
    rw [readParts, List.map_cons, readItems]
    exact congrArg _ (funext fun d => funext fun l => ih d l)

/-- An item that fails. -/
theorem Item.read_viable {item : Item} (hitem : item.isReadable = true)
    (hproductive : item.isProductive = true) {draft : Draft}
    (h : item.read sub depth kind draft lexemes = .failed failure rest) :
    Between lexemes rest (Viable item.symbols) := by
  cases item with
  | part p =>
    exact p.read_viable hsub hbare hfails hitem (by simpa [isProductive, parts] using hproductive) h
  | group guard presence parts =>
    rw [Item.read] at h
    split at h
    · rw [readParts_eq] at h
      have hparts (item : Item) (hi : item ∈ parts.map .part) :
          item.isReadable = true ∧ item.isProductive = true ∧ ∀ {draft : Draft} {l : List Lexeme},
            Lexeme.AllBare l → item.read sub depth kind draft l = .failed failure rest →
            Between l rest (Viable item.symbols) := by
        obtain ⟨p, hp, rfl⟩ := List.mem_map.1 hi
        have hreadable : p.isReadable = true := List.all_eq_true.1 hitem p hp
        have hproductive : p.isProductive = true := List.all_eq_true.1 hproductive p hp
        exact ⟨hreadable, by simpa [isProductive, Item.parts] using hproductive, fun hbare h =>
          p.read_viable hsub hbare hfails hreadable hproductive h⟩
      have hviable := readItems_viable_of_items hsub hbare hparts h
      rw [List.flatMap_map] at hviable
      refine hviable.imp fun tokens h => ?_
      obtain ⟨tail, htail, contents, h⟩ := h
      have hpresent : Yields YieldsNode (parts.flatMap Part.symbols ++ []) (tokens ++ tail) contents := by
        rwa [List.append_nil]
      exact ⟨tail, htail, contents, .present hpresent⟩
    · cases h

/-- Items that fail one after the other. -/
theorem readItems_viable {items : List Item}
    (hitems : ∀ item ∈ items, item.isReadable = true ∧ item.isProductive = true) {draft : Draft}
    (h : readItems sub depth kind items draft lexemes = .failed failure rest) :
    Between lexemes rest (Viable (items.flatMap Item.symbols)) :=
  readItems_viable_of_items hsub hbare (fun item hi => ⟨(hitems item hi).1, (hitems item hi).2,
    fun hbare h => item.read_viable hsub hbare hfails (hitems item hi).1 (hitems item hi).2 h⟩) h

/-- A production that fails. -/
theorem Production.read_viable {p : Production} (hp : p.isReadable = true)
    (h : p.read sub depth lexemes = .failed failure rest) :
    Between lexemes rest (Viable p.form.symbols) := by
  rw [← Production.symbols_items hp]
  exact readItems_viable hsub hbare hfails (fun item hi =>
    ⟨p.isReadable_of_mem_items hp item hi, Production.items_isProductive hp item hi⟩)
    (Outcome.map_eq_failed h)

end Parts

/-! ### Goals -/

/-- What is viable for a production of a goal is so for the goal. -/
theorem Goal.viable_of_production {goal : Goal} (hproductive : goal.isProductive = true)
    {p : Production} (hp : p ∈ goal.productions) {tokens : List Token}
    (h : Viable p.form.symbols tokens) : ViableNode goal.nonterminal tokens :=
  h.node (form_mem (viable_nil hproductive).1 hp) Production.exists_mayAdd

/-- What the first item of a production yields is viable for it. -/
theorem Production.viable_of_head {p : Production} (hp : p.isReadable = true) {item : Item}
    {items : List Item} (hitems : p.items = item :: items) {tokens : List Token}
    (h : Generates item.symbols tokens) : Viable p.form.symbols tokens := by
  have hproductive := Production.items_isProductive hp
  rw [← Production.symbols_items hp, hitems, List.flatMap_cons, ← List.append_nil tokens]
  rw [hitems] at hproductive
  exact h.viable_append (viable_nil_items fun i hi =>
    Item.viable_nil_of_isProductive (hproductive i (List.mem_cons_of_mem _ hi)))

/-- A reader that needs the second token to choose goes on with the first one. -/
private theorem Goal.viable_first :
    ViableNode (nonterminal .selection) [.punct .ellipsis] ∧
    ViableNode (nonterminal .definition) [.name Keyword.extend.text] ∧
    ∀ token, Terminal.string.accepts token = true → ViableNode (nonterminal .definition) [token] := by
  have hviable {goal : Goal} (hproductive : goal.isProductive = true) {p : Production}
      (hp : p ∈ goal.productions) (hreadable : p.isReadable = true) {item : Item} {items : List Item}
      (hitems : p.items = item :: items) {token : Token} (h : Generates item.symbols [token]) :
      ViableNode goal.nonterminal [token] :=
    viable_of_production hproductive hp (Production.viable_of_head hreadable hitems h)
  refine ⟨?_, ?_, fun token htoken => ?_⟩
  · exact hviable (p := .of .fragmentSpread) (by decide) (by decide) (by decide) rfl
      ⟨_, .punct .ellipsis .nil⟩
  · exact hviable (p := .of (.scalarType .extension)) (by decide) (by decide) (by decide) rfl
      ⟨_, .keyword .extend .nil⟩
  · have hstring : ∃ node, YieldsNode (.node .stringValue) [token] node := by
      have hform : Form.ofKind .stringValue ∈ forms (.node .stringValue) := List.mem_singleton_self _
      have hgives : ∃ atom, Lexical.string.Gives token atom := by
        cases token with
        | string value => exact ⟨_, .string value⟩
        | blockString value => exact ⟨_, .blockString value⟩
        | _ => cases htoken
      obtain ⟨atom, hgives⟩ := hgives
      exact ⟨_, .form hform (.lexical hgives .nil) fun hext => by cases hext⟩
    obtain ⟨node, hnode⟩ := hstring
    obtain ⟨contents, hchild⟩ := generates_child hnode .description
    exact hviable (p := .of (.scalarType .definition)) (by decide) (by decide) (by decide) rfl
      ⟨_, .present hchild⟩

/-- A token behind which the production for a goal is chosen is viable. -/
private theorem Goal.DecidesLate.viable {goal : Goal} {token : Token} (h : goal.DecidesLate token) :
    ViableNode goal.nonterminal [token] := by
  obtain ⟨hellipsis, hextend, hstring⟩ := viable_first
  rcases h with ⟨rfl, rfl⟩ | ⟨rfl, rfl | htoken⟩
  · exact hellipsis
  · exact hextend
  · exact hstring _ htoken

/-- Where no production is chosen by the first token, or by the second one, what is in front of the token
is viable. -/
theorem Goal.viable_of_refuse {goal : Goal} (hproductive : goal.isProductive = true)
    {lexemes : List Lexeme} {skip : Nat} {construct : Construct} {expected : Option Expectation}
    (h : goal.choose (firstToken lexemes) (firstToken lexemes.tail) = .refuse skip construct expected) :
    Between lexemes (lexemes.drop skip) (ViableNode goal.nonterminal) := by
  rcases skip_of_refuse h with rfl | ⟨rfl, token, hfirst, hlate⟩
  · exact .nil (viable_nil hproductive).2
  · cases lexemes with
    | nil => cases hfirst
    | cons lexeme l =>
      obtain rfl := Option.some.inj hfirst
      exact ⟨[lexeme], rfl, hlate.viable⟩

/-- A reader leaves viable tokens behind where it fails. -/
theorem Goal.read_viable (depth : Nat) : FailsViably (Goal.read depth) := by
  induction depth with
  | zero => intro goal lexemes failure rest _ _ _ h; cases h
  | succ depth ih =>
    intro goal lexemes failure rest hgoal hproductive hbare h
    rw [Goal.read] at h
    split at h
    · next skip construct expected hchoose =>
      injection h with _ hr
      exact hr ▸ viable_of_refuse hproductive hchoose
    · next p hchoose =>
      have hp := choose_mem hchoose
      have hread : p.read (Goal.read depth) depth lexemes = .failed failure rest := by
        simp only at h
        split at h
        · rcases Outcome.andThen_eq_failed h with h | ⟨node, l, -, h⟩
          · exact h
          · unfold wrapType at h
            split at h <;> cases h
        · exact h
      have hviable := Production.read_viable (read_sound depth) hbare ih
        (isReadable_of_mem hgoal hp) hread
      exact hviable.imp fun tokens h => viable_of_production hproductive hp h

end GraphQLTree
