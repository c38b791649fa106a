import GraphQLTree.Proofs.Grammar.Slots
import GraphQLTree.Proofs.Grammar.Starts
import GraphQLTree.Proofs.Language.Grammar

/-!
# Rules as forms

The items of every rule are the symbols of a form of the grammar (`Production.symbols_items`), and the goals
that a reader is asked for are nonterminals: their productions are the nonterminal's forms
(`Goal.form_mem`, `Goal.exists_production`), but for types that don't admit null.
-/

namespace GraphQLTree

open Language

/-- The nonterminal that a goal is. An operation and input values in either form are goals on their own
only. -/
def Goal.nonterminal? : Goal → Option Nonterminal
  | production (.of kind) => some (.node kind)
  | production .shorthand => some .query
  | production .interfaces => some .interfaces
  | production .unionMembers => some .unionMembers
  | production .argumentDefinitions => some .argumentDefinitions
  | value family => some (.value family)
  | selection => some .selection
  | type => some .type
  | directiveLocation => some .directiveLocation
  | definition => some .definition
  | operation => none
  | inputValues => none

/-- The nonterminal of a goal that is one. -/
def Goal.nonterminal (goal : Goal) : Nonterminal :=
  goal.nonterminal?.getD .definition

/-- The sort of tokens that a literal is. -/
def Literal.sort : Literal → Lexical
  | int => .int
  | float => .float
  | string => .string
  | boolean => .boolean
  | enumValue => .enumValue
  | operation => .operationType
  | repeatable => .repeatable
  | executable => .executable
  | typeSystem => .typeSystem

/-- The names that a rule for names leaves out. -/
def NameRule.except : NameRule → List Keyword
  | any => []
  | fragment => [.onType]
  | enumValue => [.trueValue, .falseValue, .nullValue]

/-- The symbols of a part. -/
def Part.symbols : Part → List Symbol
  | gap _ => []
  | punct p => [.punct p]
  | bracket p _ => [.punct p]
  | keyword k => [.keyword k]
  | name slot rule => [.name slot rule.except]
  | spacedName slot => [.name slot []]
  | literal l => [.lexical l.sort]
  | child slot goal => [.child slot goal.nonterminal]
  | opened _ slot goal => [.child slot goal.nonterminal]
  | listed slot goal _ allowEmpty =>
    if allowEmpty then [.many slot goal.nonterminal] else [.some slot goal.nonterminal]
  | repeated slot goal _ => [.many slot goal.nonterminal]
  | separated slot goal delimiter => [.separated slot goal.nonterminal delimiter]
  | juxtaposed _ => []
  | demand _ => []

/-- The symbols of an item. -/
def Item.symbols : Item → List Symbol
  | part p => p.symbols
  | group _ _ parts => [.optional (parts.flatMap Part.symbols)]

/-- The form of a production. -/
def Production.form : Production → Form
  | of kind => .ofKind kind
  | shorthand => .query
  | interfaces =>
    ⟨.namedTypeSet, .none, [.keyword .implements,
      .separated .types (.node .namedType) .ampersand]⟩
  | unionMembers =>
    ⟨.namedTypeSet, .none, [.punct .equals, .separated .types (.node .namedType) .pipe]⟩
  | argumentDefinitions =>
    ⟨.inputValueDefinitionSet, .none, [.punct .parenOpen,
      .some .definitions (.node .inputValueDefinition), .punct .parenClose]⟩

namespace Production

/-- The items of a production are the symbols of its form. -/
theorem symbols_items {p : Production} (hp : p.isReadable = true) :
    p.items.flatMap Item.symbols = p.form.symbols := by
  cases p with
  | of kind =>
    cases kind with
    | schema role => cases role <;> rfl
    | scalarType role => cases role <;> rfl
    | objectType role => cases role <;> rfl
    | interfaceType role => cases role <;> rfl
    | unionType role => cases role <;> rfl
    | enumType role => cases role <;> rfl
    | inputObjectType role => cases role <;> rfl
    | nonNullType => cases hp
    | _ => rfl
  | _ => rfl

theorem kind_form (p : Production) : p.form.kind = p.kind := by
  cases p <;> rfl

theorem atom_form (p : Production) : p.form.atom = p.rule.start := by
  have hcheck := check (fun p => p.form.atom = p.rule.start) (by decide) p
  exact of_decide_eq_true hcheck

/-- The rules that demand something are those of extensions. -/
theorem demands_eq {p : Production} (hp : p.isReadable = true) :
    p.demands = isExtension p.kind := by
  have hcheck := check (fun p => !p.isReadable || p.demands = isExtension p.kind)
    (by decide) p
  simpa [hp] using hcheck

end Production

namespace Goal

/-- The forms of a goal's productions are those of its nonterminal. -/
theorem form_mem {goal : Goal} {n : Nonterminal} (hn : goal.nonterminal? = some n) {p : Production}
    (hp : p ∈ goal.productions) : p.form ∈ forms n := by
  -- Where the forms are those of a list of kinds, the productions are compared with the list.
  have hkinds {kinds : List Kind} (h : ∃ kind ∈ kinds, p = .of kind) :
      p.form ∈ kinds.map Form.ofKind := by
    obtain ⟨kind, hkind, rfl⟩ := h
    exact List.mem_map_of_mem hkind
  cases goal with
  | production q =>
    obtain rfl := List.mem_singleton.1 hp
    cases p <;> obtain rfl := Option.some.inj hn <;> exact List.mem_singleton_self _
  | value family =>
    obtain rfl := Option.some.inj hn
    have hcheck : ∀ family ∈ Family.all, ∀ p ∈ (value family).productions,
        ∃ kind ∈ values family, p = .of kind := by decide
    exact hkinds (hcheck family (by cases family <;> decide) p hp)
  | selection =>
    obtain rfl := Option.some.inj hn
    simp only [productions, List.mem_cons, List.not_mem_nil, or_false] at hp
    rcases hp with rfl | rfl | rfl <;> simp [forms, Production.form]
  | type =>
    obtain rfl := Option.some.inj hn
    simp only [productions, List.mem_cons, List.not_mem_nil, or_false] at hp
    rcases hp with rfl | rfl <;> simp [forms, Production.form]
  | directiveLocation =>
    obtain rfl := Option.some.inj hn
    simp only [productions, List.mem_cons, List.not_mem_nil, or_false] at hp
    rcases hp with rfl | rfl <;> simp [forms, Production.form]
  | definition =>
    obtain rfl := Option.some.inj hn
    have hcheck : ∀ p ∈ definition.productions,
        p = .shorthand ∨ ∃ kind ∈ definitions, p = .of kind := by decide
    rcases hcheck p hp with rfl | h
    · exact List.mem_cons_self
    · exact List.mem_cons_of_mem _ (hkinds h)
  | operation => cases hn
  | inputValues => cases hn

/-- The forms of a goal's nonterminal are those of its productions, but for types that don't admit
null. -/
theorem exists_production {goal : Goal} {n : Nonterminal} (hn : goal.nonterminal? = some n)
    {form : Form} (hform : form ∈ forms n) :
    (∃ p ∈ goal.productions, p.form = form) ∨ goal = type ∧ form = .ofKind .nonNullType := by
  cases goal with
  | production q =>
    refine .inl ⟨q, List.mem_singleton_self q, ?_⟩
    cases q <;> obtain rfl := Option.some.inj hn <;> exact (List.mem_singleton.1 hform).symm
  | value family =>
    obtain rfl := Option.some.inj hn
    obtain ⟨kind, hkind, rfl⟩ := List.mem_map.1 hform
    have hcheck : ∀ family ∈ Family.all, ∀ kind ∈ values family,
        .of kind ∈ (value family).productions := by decide
    exact .inl ⟨.of kind, hcheck family (by cases family <;> decide) kind hkind, rfl⟩
  | selection =>
    obtain rfl := Option.some.inj hn
    simp only [forms, List.mem_cons, List.not_mem_nil, or_false] at hform
    rcases hform with rfl | rfl | rfl
    · exact .inl ⟨.of .field, by decide, rfl⟩
    · exact .inl ⟨.of .fragmentSpread, by decide, rfl⟩
    · exact .inl ⟨.of .inlineFragment, by decide, rfl⟩
  | type =>
    obtain rfl := Option.some.inj hn
    simp only [forms, List.mem_cons, List.not_mem_nil, or_false] at hform
    rcases hform with rfl | rfl | rfl
    · exact .inl ⟨.of .namedType, by decide, rfl⟩
    · exact .inl ⟨.of .listType, by decide, rfl⟩
    · exact .inr ⟨rfl, rfl⟩
  | directiveLocation =>
    obtain rfl := Option.some.inj hn
    simp only [forms, List.mem_cons, List.not_mem_nil, or_false] at hform
    rcases hform with rfl | rfl
    · exact .inl ⟨.of .executableLocation, by decide, rfl⟩
    · exact .inl ⟨.of .typeSystemLocation, by decide, rfl⟩
  | definition =>
    obtain rfl := Option.some.inj hn
    rcases List.mem_cons.1 hform with rfl | hform
    · exact .inl ⟨.shorthand, by decide, rfl⟩
    · obtain ⟨kind, hkind, rfl⟩ := List.mem_map.1 hform
      have hcheck : ∀ kind ∈ definitions, .of kind ∈ definition.productions := by decide
      exact .inl ⟨.of kind, hcheck kind hkind, rfl⟩
  | operation => cases hn
  | inputValues => cases hn

end Goal

/-- The goals that a rule asks for are nonterminals. -/
theorem Part.nonterminal_of_asks {p : Production} (hp : p.isReadable = true) {item : Item}
    (hitem : item ∈ p.items) {part : Part} (hpart : part ∈ item.parts) {ask : Slot × Goal}
    (hask : ask ∈ part.asks) : ask.2.nonterminal? = some ask.2.nonterminal := by
  have hcheck := Production.check (fun p => !p.isReadable || p.items.all fun item =>
    item.parts.all fun part => part.asks.all fun ask => ask.2.nonterminal?.isSome)
    (by decide) p
  simp only [hp, Bool.not_true, Bool.false_or, List.all_eq_true] at hcheck
  obtain ⟨n, hn⟩ := Option.isSome_iff_exists.1 (hcheck item hitem part hpart ask hask)
  rw [Goal.nonterminal, hn]
  rfl

/-! ### Tokens -/

/-- A rule for names refuses just the keywords that it leaves out. -/
theorem NameRule.refuses_eq_none_iff (rule : NameRule) (text : String) :
    rule.refuses? text = none ↔ ∀ k ∈ rule.except, text ≠ k.text := by
  have hname (k : Keyword) : text ≠ k.text ↔ Keyword.ofName? text ≠ some k :=
    not_congr ⟨fun h => h ▸ k.ofName?_text, Keyword.eq_text_of_ofName?⟩
  cases rule with
  | any => cases h : Keyword.ofName? text <;> simp [refuses?, except]
  | fragment =>
    simp only [except, List.mem_singleton, forall_eq, hname, refuses?]
    cases h : Keyword.ofName? text with
    | none => simp
    | some k => cases k <;> simp
  | enumValue =>
    simp only [except, List.mem_cons, List.not_mem_nil, or_false, forall_eq_or_imp, forall_eq,
      hname, refuses?]
    cases h : Keyword.ofName? text with
    | none => simp
    | some k => cases k <;> simp

theorem OperationType.ofText?_eq_some {text : String} {operation : OperationType} :
    OperationType.ofText? text = some operation ↔ text = operation.text := by
  constructor
  · intro h
    have htext := List.find?_some h
    exact (eq_of_beq htext).symm
  · rintro rfl
    cases operation <;> rfl

theorem ExecutableLocation.ofText?_eq_some {text : String} {location : ExecutableLocation} :
    ExecutableLocation.ofText? text = some location ↔ text = location.text := by
  constructor
  · intro h
    have htext := List.find?_some h
    exact (eq_of_beq htext).symm
  · rintro rfl
    cases location <;> rfl

theorem TypeSystemLocation.ofText?_eq_some {text : String} {location : TypeSystemLocation} :
    TypeSystemLocation.ofText? text = some location ↔ text = location.text := by
  constructor
  · intro h
    have htext := List.find?_some h
    exact (eq_of_beq htext).symm
  · rintro rfl
    cases location <;> rfl

/-- What a literal reads is a token of its sort. -/
theorem Literal.gives_of_read {l : Literal} {token : Token} {atom : Atom}
    (h : l.read? token = some atom) : l.sort.Gives token atom := by
  -- Tokens other than names are read by the one literal of their sort, whatever their text is.
  cases token with
  | int text =>
    cases l <;> simp only [read?, reduceCtorEq, Option.some.injEq] at h
    exact h ▸ .int text
  | float text =>
    cases l <;> simp only [read?, reduceCtorEq, Option.some.injEq] at h
    exact h ▸ .float text
  | string value =>
    cases l <;> simp only [read?, reduceCtorEq, Option.some.injEq] at h
    exact h ▸ .string value
  | blockString value =>
    cases l <;> simp only [read?, reduceCtorEq, Option.some.injEq] at h
    exact h ▸ .blockString value
  | name text =>
    cases l with
    | boolean =>
      simp only [read?] at h
      split at h
      · next hk =>
        obtain rfl := Keyword.eq_text_of_ofName? hk
        exact Option.some.inj h ▸ .trueValue
      · next hk =>
        obtain rfl := Keyword.eq_text_of_ofName? hk
        exact Option.some.inj h ▸ .falseValue
      · cases h
    | enumValue =>
      simp only [read?, Option.ite_none_left_eq_some] at h
      have hname := (NameRule.refuses_eq_none_iff .enumValue text).1 (by simpa using h.1)
      exact Option.some.inj h.2 ▸ .enumValue text hname
    | operation =>
      obtain ⟨operation, ho, rfl⟩ := Option.map_eq_some_iff.1 h
      obtain rfl := OperationType.ofText?_eq_some.1 ho
      exact .operationType operation
    | repeatable =>
      simp only [read?, Option.ite_none_right_eq_some] at h
      obtain rfl := Keyword.eq_text_of_ofName? h.1
      exact Option.some.inj h.2 ▸ .repeatable
    | executable =>
      obtain ⟨location, hl, rfl⟩ := Option.map_eq_some_iff.1 h
      obtain rfl := ExecutableLocation.ofText?_eq_some.1 hl
      exact .executable location
    | typeSystem =>
      obtain ⟨location, hl, rfl⟩ := Option.map_eq_some_iff.1 h
      obtain rfl := TypeSystemLocation.ofText?_eq_some.1 hl
      exact .typeSystem location
    | _ => cases h
  | _ => cases l <;> cases h

/-- A literal reads every token of its sort. -/
theorem Literal.read_of_gives {l : Literal} {token : Token} {atom : Atom}
    (h : l.sort.Gives token atom) : l.read? token = some atom := by
  generalize hsort : l.sort = sort at h
  cases h with
  | int text => cases l <;> cases hsort; rfl
  | float text => cases l <;> cases hsort; rfl
  | string value => cases l <;> cases hsort; rfl
  | blockString value => cases l <;> cases hsort; rfl
  | trueValue => cases l <;> cases hsort; rfl
  | falseValue => cases l <;> cases hsort; rfl
  | enumValue text h =>
    obtain rfl : l = .enumValue := by cases l <;> first | rfl | cases hsort
    have hrefuses := (NameRule.refuses_eq_none_iff .enumValue text).2 h
    simp [read?, hrefuses]
  | operationType operation =>
    obtain rfl : l = .operation := by cases l <;> first | rfl | cases hsort
    simp [read?, OperationType.ofText?_eq_some]
  | repeatable => cases l <;> cases hsort; rfl
  | executable location =>
    obtain rfl : l = .executable := by cases l <;> first | rfl | cases hsort
    simp [read?, ExecutableLocation.ofText?_eq_some]
  | typeSystem location =>
    obtain rfl : l = .typeSystem := by cases l <;> first | rfl | cases hsort
    simp [read?, TypeSystemLocation.ofText?_eq_some]

end GraphQLTree
