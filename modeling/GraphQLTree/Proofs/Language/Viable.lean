import GraphQLTree.Proofs.Language.Symbols
import GraphQLTree.Proofs.Token.Legible

/-!
# Viable prefixes

Tokens are **viable** for some symbols of the grammar if other ones can be put behind them so that the
symbols yield them all. The other ones are **usable**: they can be written in a text. Every goal that a
rule asks for is **productive**, which means that it derives some usable tokens, so the rest of a rule
can always be filled in behind what is viable for the start of it (`Item.viable_nil`), and an extension
that adds nothing yet can still add something at its end (`Viable.node`).
-/

namespace GraphQLTree

/-- Whether a token can be written in a text and isn't a comment. -/
def Token.IsUsable (token : Token) : Prop :=
  token.Sound ∧ token.isComment = false

theorem Punctuator.isUsable (p : Punctuator) : (Token.punct p).IsUsable :=
  ⟨p.sound, rfl⟩

theorem Keyword.isUsable (k : Keyword) : (Token.name k.text).IsUsable :=
  ⟨k.sound, rfl⟩

theorem Token.isUsable_name {text : String} (h : IsName text.toList) : (Token.name text).IsUsable :=
  ⟨h, rfl⟩

namespace Language

/-! ### Symbols one after the other -/

/-- What symbols give to a node, and other ones behind them. -/
def Contents.append (a b : Contents) : Contents :=
  ⟨a.children ++ b.children, a.atoms ++ b.atoms⟩

section Append

variable {derives : Nonterminal → List Token → Node → Prop}

/-- What symbols yield stands in front of what other ones yield. -/
theorem Yields.append {a b : List Symbol} {s t : List Token} {c d : Contents}
    (ha : Yields derives a s c) (hb : Yields derives b t d) :
    Yields derives (a ++ b) (s ++ t) (c.append d) := by
  induction ha with
  | nil => exact hb
  | punct p _ ih => exact .punct p ih
  | keyword k _ ih => exact .keyword k ih
  | name slot hname _ ih => exact .name slot hname ih
  | lexical hgives _ ih => exact .lexical hgives ih
  | child slot hinner _ ih =>
    rw [List.append_assoc]
    exact .child slot hinner ih
  | absent optional _ ih => exact .absent optional ih
  | present _ ih => exact .present (by simpa using ih)
  | none slot n _ ih => exact .none slot n ih
  | more _ ih => exact .more ih
  | some _ ih => exact .some ih
  | separated _ ih => exact .separated ih
  | leading _ ih => exact .leading ih
  | last slot n delimiter _ ih => exact .last slot n delimiter ih
  | next _ ih => exact .next ih

/-- Whether some symbols yield the first of some tokens, and other ones the other ones. -/
def Splits (derives : Nonterminal → List Token → Node → Prop) (a b : List Symbol)
    (tokens : List Token) (contents : Contents) : Prop :=
  ∃ s t c d, tokens = s ++ t ∧ contents = c.append d ∧ Yields derives a s c ∧ Yields derives b t d

namespace Splits

variable {a b : List Symbol} {tokens : List Token} {contents : Contents}

theorem nil (h : Yields derives b tokens contents) : Splits derives [] b tokens contents :=
  ⟨[], tokens, ⟨[], []⟩, contents, rfl, rfl, .nil, h⟩

/-- Other symbols may yield more of the first tokens. -/
theorem imp (h : Splits derives a b tokens contents) {a' : List Symbol} (more : List Token)
    (gives : Contents) (himp : ∀ {s : List Token} {c : Contents}, Yields derives a s c →
      Yields derives a' (more ++ s) (gives.append c)) :
    Splits derives a' b (more ++ tokens) (gives.append contents) := by
  obtain ⟨s, t, c, d, rfl, rfl, ha, hb⟩ := h
  refine ⟨more ++ s, t, gives.append c, d, (List.append_assoc ..).symm, ?_, himp ha, hb⟩
  simp [Contents.append]

end Splits

/-- What symbols yield together is what the first ones yield and what the other ones do. -/
theorem Yields.splits {symbols : List Symbol} {tokens : List Token} {contents : Contents}
    (h : Yields derives symbols tokens contents) {a b : List Symbol} (hsymbols : symbols = a ++ b) :
    Splits derives a b tokens contents := by
  -- The first symbol is one of `b`, and then nothing is left of `a`, or it is the first one of `a`.
  have hhead {symbol : Symbol} {symbols a : List Symbol} (h : symbol :: symbols = a ++ b) :
      a = [] ∧ b = symbol :: symbols ∨ ∃ a', a = symbol :: a' ∧ symbols = a' ++ b :=
    List.cons_eq_append_iff.1 h
  -- Every case gives what its symbol yields to the tokens of `a`; symbols that stand for others are
  -- expanded in `a`.
  induction h generalizing a with
  | nil =>
    obtain ⟨rfl, rfl⟩ := List.append_eq_nil_iff.1 hsymbols.symm
    exact .nil .nil
  | punct p h ih =>
    rcases hhead hsymbols with ⟨rfl, rfl⟩ | ⟨a, rfl, rfl⟩
    · exact .nil (.punct p h)
    · exact (ih rfl).imp [.punct p] ⟨[], []⟩ (.punct p)
  | keyword k h ih =>
    rcases hhead hsymbols with ⟨rfl, rfl⟩ | ⟨a, rfl, rfl⟩
    · exact .nil (.keyword k h)
    · exact (ih rfl).imp [.name k.text] ⟨[], []⟩ (.keyword k)
  | @name slot except text hname symbols tokens contents h ih =>
    rcases hhead hsymbols with ⟨rfl, rfl⟩ | ⟨a, rfl, rfl⟩
    · exact .nil (.name slot hname h)
    · exact (ih rfl).imp [.name text] ⟨[(slot, .ofName text)], []⟩ (.name slot hname)
  | @lexical sort token atom hgives symbols tokens contents h ih =>
    rcases hhead hsymbols with ⟨rfl, rfl⟩ | ⟨a, rfl, rfl⟩
    · exact .nil (.lexical hgives h)
    · exact (ih rfl).imp [token] ⟨[], [atom]⟩ (.lexical hgives)
  | @child slot nonterminal inner node hinner symbols tokens contents h ih =>
    rcases hhead hsymbols with ⟨rfl, rfl⟩ | ⟨a, rfl, rfl⟩
    · exact .nil (.child slot hinner h)
    · exact (ih rfl).imp inner ⟨[(slot, node)], []⟩ (.child slot hinner)
  | absent optional h ih =>
    rcases hhead hsymbols with ⟨rfl, rfl⟩ | ⟨a, rfl, rfl⟩
    · exact .nil (.absent optional h)
    · exact (ih rfl).imp [] ⟨[], []⟩ (.absent optional)
  | present h ih =>
    rcases hhead hsymbols with ⟨rfl, rfl⟩ | ⟨a, rfl, rfl⟩
    · exact .nil (.present h)
    · exact (ih (List.append_assoc ..).symm).imp [] ⟨[], []⟩ .present
  | none slot n h ih =>
    rcases hhead hsymbols with ⟨rfl, rfl⟩ | ⟨a, rfl, rfl⟩
    · exact .nil (.none slot n h)
    · exact (ih rfl).imp [] ⟨[], []⟩ (.none slot n)
  | @more slot n symbols tokens contents h ih =>
    rcases hhead hsymbols with ⟨rfl, rfl⟩ | ⟨a, rfl, rfl⟩
    · exact .nil (.more h)
    · exact (ih (a := .child slot n :: .many slot n :: a) rfl).imp [] ⟨[], []⟩ .more
  | @some slot n symbols tokens contents h ih =>
    rcases hhead hsymbols with ⟨rfl, rfl⟩ | ⟨a, rfl, rfl⟩
    · exact .nil (.some h)
    · exact (ih (a := .child slot n :: .many slot n :: a) rfl).imp [] ⟨[], []⟩ .some
  | @separated slot n delimiter symbols tokens contents h ih =>
    rcases hhead hsymbols with ⟨rfl, rfl⟩ | ⟨a, rfl, rfl⟩
    · exact .nil (.separated h)
    · exact (ih (a := .child slot n :: .delimited slot n delimiter :: a) rfl).imp [] ⟨[], []⟩
        .separated
  | @leading slot n delimiter symbols tokens contents h ih =>
    rcases hhead hsymbols with ⟨rfl, rfl⟩ | ⟨a, rfl, rfl⟩
    · exact .nil (.leading h)
    · exact (ih (a := .punct delimiter :: .child slot n :: .delimited slot n delimiter :: a)
        rfl).imp [] ⟨[], []⟩ .leading
  | last slot n delimiter h ih =>
    rcases hhead hsymbols with ⟨rfl, rfl⟩ | ⟨a, rfl, rfl⟩
    · exact .nil (.last slot n delimiter h)
    · exact (ih rfl).imp [] ⟨[], []⟩ (.last slot n delimiter)
  | @next slot n delimiter symbols tokens contents h ih =>
    rcases hhead hsymbols with ⟨rfl, rfl⟩ | ⟨a, rfl, rfl⟩
    · exact .nil (.next h)
    · exact (ih (a := .punct delimiter :: .child slot n :: .delimited slot n delimiter :: a)
        rfl).imp [] ⟨[], []⟩ .next

end Append

/-! ### Viable tokens -/

/-- Whether some symbols yield some tokens. -/
def Generates (symbols : List Symbol) (tokens : List Token) : Prop :=
  ∃ contents, Yields YieldsNode symbols tokens contents

/-- Whether some symbols yield some tokens with usable ones behind them. -/
def Viable (symbols : List Symbol) (tokens : List Token) : Prop :=
  ∃ tail : List Token, (∀ token ∈ tail, token.IsUsable) ∧ Generates symbols (tokens ++ tail)

/-- Whether a nonterminal derives some tokens with usable ones behind them. -/
def ViableNode (n : Nonterminal) (tokens : List Token) : Prop :=
  ∃ (tail : List Token) (node : Node), (∀ token ∈ tail, token.IsUsable) ∧
    YieldsNode n (tokens ++ tail) node

section Viable

variable {a b : List Symbol} {s t : List Token}

theorem Generates.append (ha : Generates a s) (hb : Generates b t) : Generates (a ++ b) (s ++ t) := by
  obtain ⟨c, ha⟩ := ha
  obtain ⟨d, hb⟩ := hb
  exact ⟨_, ha.append hb⟩

theorem Generates.viable (h : Generates a s) : Viable a s :=
  ⟨[], by simp, by rwa [List.append_nil]⟩

/-- What is viable stays so behind what is there already. -/
theorem Generates.viable_append (ha : Generates a s) (hb : Viable b t) : Viable (a ++ b) (s ++ t) := by
  obtain ⟨tail, htail, hb⟩ := hb
  exact ⟨tail, htail, by rw [List.append_assoc]; exact ha.append hb⟩

/-- What is viable can be filled up. -/
theorem Viable.append (ha : Viable a s) (hb : Viable b []) : Viable (a ++ b) s := by
  obtain ⟨tail, htail, ha⟩ := ha
  obtain ⟨tail', htail', hb⟩ := hb
  refine ⟨tail ++ tail', List.forall_mem_append.2 ⟨htail, htail'⟩, ?_⟩
  rw [← List.append_assoc]
  exact ha.append hb

theorem Viable.imp (h : Viable a s)
    (himp : ∀ {tokens : List Token} {contents : Contents}, Yields YieldsNode a tokens contents →
      Yields YieldsNode b tokens contents) : Viable b s := by
  obtain ⟨tail, htail, contents, h⟩ := h
  exact ⟨tail, htail, contents, himp h⟩

/-- A usable token can always be put. -/
theorem viable_token {symbol : Symbol} {token : Token} (htoken : token.IsUsable)
    (h : Generates [symbol] [token]) : Viable [symbol] [] :=
  ⟨[token], by simpa using htoken, h⟩

theorem generates_child {n : Nonterminal} {node : Node} (h : YieldsNode n s node) (slot : Slot) :
    Generates [.child slot n] s := by
  have hchild := Yields.child slot h .nil
  rw [List.append_nil] at hchild
  exact ⟨_, hchild⟩

theorem ViableNode.child {n : Nonterminal} (h : ViableNode n s) (slot : Slot) :
    Viable [.child slot n] s := by
  obtain ⟨tail, node, htail, h⟩ := h
  exact ⟨tail, htail, generates_child h slot⟩

/-! ### Symbols that give something -/

/-- Whether a symbol yields children of a node besides its name, or nothing. -/
inductive Symbol.MayAdd : Symbol → Prop
  | optional {slot : Slot} {n : Nonterminal} (hslot : slot ≠ .name) (h : ViableNode n []) :
    MayAdd (.optional [.child slot n])
  | many {slot : Slot} {n : Nonterminal} (hslot : slot ≠ .name) (h : ViableNode n []) :
    MayAdd (.many slot n)

/-- A symbol that gives nothing yet can still give a child. -/
private theorem Yields.exists_adding {symbol : Symbol} (hadd : symbol.MayAdd) {tokens : List Token}
    {contents : Contents} (h : Yields YieldsNode [symbol] tokens contents) :
    ∃ tail contents', (∀ token ∈ tail, token.IsUsable) ∧
      Yields YieldsNode [symbol] (tokens ++ tail) contents' ∧ contents'.AddsSomething := by
  have hthere {slot : Slot} (hslot : slot ≠ .name) {node : Node} {contents : Contents}
      (h : Yields YieldsNode [symbol] tokens
        { contents with children := (slot, node) :: contents.children }) :
      ∃ tail contents', (∀ token ∈ tail, token.IsUsable) ∧
        Yields YieldsNode [symbol] (tokens ++ tail) contents' ∧ contents'.AddsSomething :=
    ⟨[], _, by simp, by rwa [List.append_nil], _, List.mem_cons_self, hslot⟩
  cases hadd with
  | @optional slot n hslot hnode =>
    cases h with
    | absent _ h =>
      cases h
      obtain ⟨tail, htail, contents, hchild⟩ := hnode.child slot
      cases hchild with
      | child _ hinner h =>
        exact ⟨_, _, htail, .present (.child slot hinner h), _, List.mem_cons_self, hslot⟩
    | present h =>
      cases h with
      | child _ hinner h => exact hthere hslot (.present (.child slot hinner h))
  | @many slot n hslot hnode =>
    cases h with
    | none _ _ h =>
      cases h
      obtain ⟨tail, htail, contents, hchild⟩ := hnode.child slot
      cases hchild with
      | child _ hinner h =>
        exact ⟨_, _, htail, .more (.child slot hinner (.none slot n h)), _, List.mem_cons_self, hslot⟩
    | more h =>
      cases h with
      | child _ hinner h => exact hthere hslot (.more (.child slot hinner h))

/-- Tokens that are viable for a form are so for its nonterminal, if an extension can add something at
its end. -/
theorem Viable.node {n : Nonterminal} {form : Form} (hform : form ∈ forms n)
    (h : Viable form.symbols s)
    (hadds : isExtension form.kind = true →
      ∃ last ∈ form.symbols.getLast?, last.MayAdd) : ViableNode n s := by
  obtain ⟨tail, htail, contents, h⟩ := h
  cases hext : isExtension form.kind with
  | false => exact ⟨tail, _, htail, .form hform h (by simp [hext])⟩
  | true =>
    obtain ⟨last, hlast?, hlast⟩ := hadds hext
    obtain ⟨start, hsymbols⟩ := List.getLast?_eq_some_iff.1 hlast?
    obtain ⟨u, v, c, d, htokens, rfl, hstart, hend⟩ := h.splits hsymbols
    obtain ⟨more, d', hmore, hend, entry, hentry, hname⟩ := hend.exists_adding hlast
    have hall := hstart.append hend
    rw [← hsymbols, ← List.append_assoc, ← htokens, List.append_assoc] at hall
    exact ⟨tail ++ more, _, List.forall_mem_append.2 ⟨htail, hmore⟩,
      .form hform hall fun _ => ⟨entry, List.mem_append_right _ hentry, hname⟩⟩

end Viable

/-- Every sort of tokens has a usable one. -/
theorem Lexical.exists_usable (sort : Lexical) : ∃ token atom, sort.Gives token atom ∧ token.IsUsable := by
  cases sort with
  | int => exact ⟨_, _, .int "0", ⟨⟨.inl rfl, by decide⟩, rfl⟩⟩
  | float => exact ⟨_, _, .float "0.0", ⟨⟨.inr rfl, by decide⟩, rfl⟩⟩
  | string => exact ⟨_, _, .string "", ⟨trivial, rfl⟩⟩
  | boolean => exact ⟨_, _, .trueValue, Keyword.isUsable _⟩
  | enumValue => exact ⟨_, _, .enumValue "a" (by decide), Token.isUsable_name (by decide)⟩
  | operationType => exact ⟨_, _, .operationType .query, Keyword.isUsable .query⟩
  | repeatable => exact ⟨_, _, .repeatable, Keyword.isUsable _⟩
  | executable => exact ⟨_, _, .executable .query, Token.isUsable_name (by decide)⟩
  | typeSystem => exact ⟨_, _, .typeSystem .schema, Token.isUsable_name (by decide)⟩

end Language

open Language

/-! ### Productive goals -/

/-- The goals that a part needs a child of. -/
def Part.needs : Part → List Goal
  | child _ goal => [goal]
  | opened _ _ goal => [goal]
  | listed _ goal _ allowEmpty => if allowEmpty then [] else [goal]
  | separated _ goal _ => [goal]
  | _ => []

/-- The goals that an item needs a child of. -/
def Item.needs : Item → List Goal
  | part p => p.needs
  | group _ _ _ => []

/-- A part can be filled in if the goals can that it needs a child of. -/
theorem Part.viable_nil {part : Part} (h : ∀ goal ∈ part.needs, ViableNode goal.nonterminal []) :
    Viable part.symbols [] := by
  have hnil : Viable [] [] := Generates.viable ⟨_, .nil⟩
  have hname (slot : Slot) (rule : NameRule) : Viable [.name slot rule.except] [] :=
    viable_token (Token.isUsable_name (by decide : Token.IsName "a".toList)) ⟨_, .name slot (by cases rule <;> decide) .nil⟩
  have hchild (slot : Slot) {goal : Goal} (hgoal : goal ∈ part.needs) :
      Viable [.child slot goal.nonterminal] [] :=
    (h goal hgoal).child slot
  cases part with
  | gap g => exact hnil
  | punct p => exact viable_token p.isUsable ⟨_, .punct p .nil⟩
  | bracket p slot => exact viable_token p.isUsable ⟨_, .punct p .nil⟩
  | keyword k => exact viable_token k.isUsable ⟨_, .keyword k .nil⟩
  | name slot rule => exact hname slot rule
  | spacedName slot => exact hname slot .any
  | literal l =>
    obtain ⟨token, atom, hgives, htoken⟩ := l.sort.exists_usable
    exact viable_token htoken ⟨_, .lexical hgives .nil⟩
  | child slot goal => exact hchild slot (List.mem_singleton_self _)
  | opened p slot goal => exact hchild slot (List.mem_singleton_self _)
  | listed slot goal close allowEmpty =>
    have hmany : Viable [.many slot goal.nonterminal] [] := Generates.viable ⟨_, .none _ _ .nil⟩
    cases allowEmpty with
    | true => exact hmany
    | false => exact ((hchild slot (List.mem_singleton_self _)).append hmany).imp .some
  | repeated slot goal start => exact Generates.viable ⟨_, .none _ _ .nil⟩
  | separated slot goal delimiter =>
    have hdelimited : Viable [.delimited slot goal.nonterminal delimiter] [] :=
      Generates.viable ⟨_, .last _ _ _ .nil⟩
    exact ((hchild slot (List.mem_singleton_self _)).append hdelimited).imp .separated
  | juxtaposed slot => exact hnil
  | demand p => exact hnil

/-- An item can be filled in if the goals can that it needs a child of. -/
theorem Item.viable_nil {item : Item} (h : ∀ goal ∈ item.needs, ViableNode goal.nonterminal []) :
    Viable item.symbols [] := by
  cases item with
  | part p => exact p.viable_nil h
  | group guard presence parts => exact Generates.viable ⟨_, .absent _ .nil⟩

/-- Items can be filled in one after the other. -/
theorem viable_nil_items {items : List Item} (h : ∀ item ∈ items, Viable item.symbols []) :
    Viable (items.flatMap Item.symbols) [] := by
  induction items with
  | nil => exact Generates.viable ⟨_, .nil⟩
  | cons item items ih =>
    obtain ⟨hitem, hitems⟩ := List.forall_mem_cons.1 h
    exact hitem.append (ih hitems)

/-- Whether a goal derives usable tokens by rules that are nested so deep at most. -/
def Goal.isProductiveWithin : Nat → Goal → Bool
  | 0, _ => false
  | n + 1, goal => goal.nonterminal?.isSome && goal.productions.any fun p =>
    p.isReadable && !isExtension p.kind &&
      p.items.all fun item => item.needs.all (isProductiveWithin n)

/-- Whether a goal derives usable tokens. -/
def Goal.isProductive (goal : Goal) : Bool :=
  goal.isProductiveWithin 5

theorem Goal.nonterminal?_of_isSome {goal : Goal} (h : goal.nonterminal?.isSome = true) :
    goal.nonterminal? = some goal.nonterminal := by
  obtain ⟨n, hn⟩ := Option.isSome_iff_exists.1 h
  rw [nonterminal, hn]
  rfl

private theorem Goal.viable_nil_within {depth : Nat} {goal : Goal}
    (h : goal.isProductiveWithin depth = true) :
    goal.nonterminal? = some goal.nonterminal ∧ ViableNode goal.nonterminal [] := by
  induction depth generalizing goal with
  | zero => cases h
  | succ depth ih =>
    simp only [isProductiveWithin, Bool.and_eq_true, List.any_eq_true, Bool.not_eq_true',
      List.all_eq_true] at h
    obtain ⟨hn, p, hp, ⟨hreadable, hext⟩, hitems⟩ := h
    have hn := nonterminal?_of_isSome hn
    refine ⟨hn, Viable.node (form_mem hn hp) ?_ (by simp [p.kind_form, hext])⟩
    rw [← Production.symbols_items hreadable]
    exact viable_nil_items fun item hitem =>
      item.viable_nil fun goal hgoal => (ih (hitems item hitem goal hgoal)).2

/-- A productive goal is a nonterminal, which derives usable tokens. -/
theorem Goal.viable_nil {goal : Goal} (h : goal.isProductive = true) :
    goal.nonterminal? = some goal.nonterminal ∧ ViableNode goal.nonterminal [] :=
  viable_nil_within h

/-- Whether the goals that a part asks for are productive. -/
def Part.isProductive (part : Part) : Bool :=
  part.asks.all fun ask => ask.2.isProductive

/-- Whether the goals that an item asks for are productive. -/
def Item.isProductive (item : Item) : Bool :=
  item.parts.all Part.isProductive

/-- The goals that a rule asks for are productive. -/
theorem Production.items_isProductive {p : Production} (hp : p.isReadable = true) :
    ∀ item ∈ p.items, item.isProductive = true := by
  have hcheck := check (fun p => !p.isReadable || p.items.all Item.isProductive)
    (by decide) p
  simpa [hp] using hcheck

/-- A goal that a part asks for is a nonterminal, which derives usable tokens. -/
theorem Part.viable_of_asks {part : Part} (h : part.isProductive = true) {ask : Slot × Goal}
    (hask : ask ∈ part.asks) :
    ask.2.nonterminal? = some ask.2.nonterminal ∧ ViableNode ask.2.nonterminal [] :=
  Goal.viable_nil (List.all_eq_true.1 h ask hask)

theorem Part.exists_asks {part : Part} {goal : Goal} (h : goal ∈ part.needs) :
    ∃ slot, (slot, goal) ∈ part.asks := by
  cases part with
  | child slot g => exact ⟨slot, by simpa [needs, asks] using h⟩
  | opened p slot g => exact ⟨slot, by simpa [needs, asks] using h⟩
  | listed slot g close allowEmpty =>
    cases allowEmpty with
    | true => cases h
    | false => exact ⟨slot, by simpa [needs, asks] using h⟩
  | separated slot g delimiter => exact ⟨slot, by simpa [needs, asks] using h⟩
  | _ => cases h

/-- An item can be filled in if the goals that it asks for are productive. -/
theorem Item.viable_nil_of_isProductive {item : Item} (h : item.isProductive = true) :
    Viable item.symbols [] := by
  refine item.viable_nil fun goal hgoal => ?_
  cases item with
  | part p =>
    obtain ⟨slot, hask⟩ := p.exists_asks hgoal
    exact (Part.viable_of_asks (by simpa [isProductive, parts] using h) hask).2
  | group guard presence parts => cases hgoal

/-- The form of an extension ends in something that it may add. -/
theorem Production.exists_mayAdd {p : Production} (hext : isExtension p.form.kind = true) :
    ∃ last ∈ p.form.symbols.getLast?, last.MayAdd := by
  have hgoal (goal : Goal) (h : goal.isProductive = true) := (Goal.viable_nil h).2
  have hbody (slot : Slot) (hslot : slot ≠ .name) (kind : Kind)
      (h : (Goal.kind kind).isProductive = true) : (body slot kind).MayAdd :=
    .optional hslot (hgoal (.kind kind) h)
  cases p with
  | of kind =>
    cases kind with
    | schema role =>
      cases role with
      | definition => cases hext
      | extension =>
        exact ⟨_, rfl, hbody .operationTypes (by decide) .operationTypeDefinitionSet (by decide)⟩
    | scalarType role =>
      exact ⟨_, by cases role <;> rfl, .many (by decide)
        (hgoal (.kind (.directive .constant)) (by decide))⟩
    | objectType role =>
      exact ⟨_, by cases role <;> rfl, hbody .fields (by decide) .fieldDefinitionSet (by decide)⟩
    | interfaceType role =>
      exact ⟨_, by cases role <;> rfl, hbody .fields (by decide) .fieldDefinitionSet (by decide)⟩
    | unionType role =>
      exact ⟨_, by cases role <;> rfl, .optional (by decide)
        (hgoal (.production .unionMembers) (by decide))⟩
    | enumType role =>
      exact ⟨_, by cases role <;> rfl,
        hbody .values (by decide) .enumValueDefinitionSet (by decide)⟩
    | inputObjectType role =>
      exact ⟨_, by cases role <;> rfl,
        hbody .fields (by decide) .inputValueDefinitionSet (by decide)⟩
    | _ => cases hext
  | _ => cases hext

end GraphQLTree
