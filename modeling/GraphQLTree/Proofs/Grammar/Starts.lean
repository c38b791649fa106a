import GraphQLTree.Proofs.Grammar.Derivation

/-!
# What goals start with

A reader tells tokens apart by their **class**, of which there are finitely many. What it looks for is
always a list of classes (`Terminal.accepts_eq`), and so is what the words of a goal may start with
(`Goal.starts`). The lists are found by going through the rules three deep, and that is deep enough:
`Derives.startsIn` says so of all derivations.
-/

namespace GraphQLTree

/-! ### Classes of tokens -/

/-- What a reader can tell of a token. -/
inductive TokenClass where
  | punct (p : Punctuator)
  | keyword (k : Keyword)
  /-- A name of a directive location in executable documents. -/
  | executable
  /-- A name of a directive location in type systems. -/
  | typeSystem
  /-- Any other name. -/
  | word
  | int
  | float
  | string
  | other
  deriving DecidableEq

namespace TokenClass

/-- The class of a name. -/
def ofName (text : String) : TokenClass :=
  match Keyword.ofName? text with
  | some k => keyword k
  | none =>
    if (ExecutableLocation.ofText? text).isSome then executable
    else if (TypeSystemLocation.ofText? text).isSome then typeSystem
    else word

/-- The classes of names. -/
def names : List TokenClass :=
  Keyword.all.map keyword ++ [executable, typeSystem, word]

/-- Whether a class is one of names. -/
def isName : TokenClass → Bool
  | keyword _ => true
  | executable => true
  | typeSystem => true
  | word => true
  | _ => false

theorem mem_names {c : TokenClass} : c ∈ names ↔ c.isName = true := by
  cases c with
  | keyword k => cases k <;> decide
  | punct p => cases p <;> decide
  | _ => decide

theorem isName_ofName (text : String) : (ofName text).isName = true := by
  unfold ofName
  split
  · rfl
  · split
    · rfl
    · split <;> rfl

end TokenClass

/-- The class of a token. -/
def Token.toClass : Token → TokenClass
  | punct p => .punct p
  | name text => .ofName text
  | int _ => .int
  | float _ => .float
  | string _ => .string
  | blockString _ => .string
  | comment _ => .other
  | invalid => .other

theorem Keyword.ofName?_text (k : Keyword) : Keyword.ofName? k.text = some k := by
  cases k <;> decide

theorem Keyword.eq_text_of_ofName? {text : String} {k : Keyword}
    (h : Keyword.ofName? text = some k) : text = k.text := by
  have htext := List.find?_some h
  exact (eq_of_beq htext).symm

theorem TokenClass.ofName_eq_keyword {text : String} {k : Keyword} :
    TokenClass.ofName text = .keyword k ↔ text = k.text := by
  constructor
  · intro h
    unfold TokenClass.ofName at h
    split at h
    · next k' hk =>
      cases h
      exact Keyword.eq_text_of_ofName? hk
    · split at h
      · cases h
      · split at h <;> cases h
  · rintro rfl
    rw [TokenClass.ofName, Keyword.ofName?_text]

theorem TokenClass.ofName_eq_of_ofName? {text : String} {k : Keyword}
    (h : Keyword.ofName? text = some k) : TokenClass.ofName text = .keyword k :=
  ofName_eq_keyword.2 (Keyword.eq_text_of_ofName? h)

theorem TokenClass.ofName_executable (location : ExecutableLocation) :
    TokenClass.ofName location.text = .executable := by
  cases location <;> decide

theorem TokenClass.ofName_typeSystem (location : TypeSystemLocation) :
    TokenClass.ofName location.text = .typeSystem := by
  cases location <;> decide

/-! ### What a reader looks for -/

/-- The classes of the tokens of a sort. -/
def Terminal.classes : Terminal → List TokenClass
  | punct p => [.punct p]
  | keyword k => [.keyword k]
  | name => TokenClass.names
  | string => [.string]

theorem TokenClass.ofName_ne {text : String} {c : TokenClass} (h : c.isName = false) :
    TokenClass.ofName text ≠ c := by
  rintro rfl
  rw [isName_ofName] at h
  cases h

theorem Terminal.accepts_iff (terminal : Terminal) (token : Token) :
    terminal.accepts token = true ↔ token.toClass ∈ terminal.classes := by
  cases terminal with
  | punct p =>
    cases token with
    | name text =>
      have hne : TokenClass.ofName text ≠ .punct p := TokenClass.ofName_ne rfl
      simp [accepts, classes, Token.toClass, hne]
    | _ => simp [accepts, classes, Token.toClass]
  | keyword k =>
    cases token with
    | name text => simp [accepts, classes, Token.toClass, TokenClass.ofName_eq_keyword]
    | _ => simp [accepts, classes, Token.toClass]
  | name =>
    cases token with
    | name text =>
      have hname := TokenClass.isName_ofName text
      simpa [accepts, classes, Token.toClass, TokenClass.mem_names] using hname
    | _ => simp [accepts, classes, Token.toClass, TokenClass.mem_names, TokenClass.isName]
  | string =>
    cases token with
    | name text =>
      have hne : TokenClass.ofName text ≠ .string := TokenClass.ofName_ne rfl
      simp [accepts, classes, Token.toClass, hne]
    | _ => simp [accepts, classes, Token.toClass]

theorem Token.eq_punct_of_class {token : Token} {p : Punctuator} (h : token.toClass = .punct p) :
    token = .punct p :=
  of_decide_eq_true ((Terminal.accepts_iff (.punct p) token).2 (List.mem_singleton.2 h))

/-- The classes of the names that a rule doesn't refuse. -/
def NameRule.classes : NameRule → List TokenClass
  | any => TokenClass.names
  | fragment => TokenClass.names.filter (· ≠ .keyword .onType)
  | enumValue =>
    TokenClass.names.filter (· ∉ [.keyword .trueValue, .keyword .falseValue, .keyword .nullValue])

theorem NameRule.mem_classes {rule : NameRule} {text : String} (h : rule.refuses? text = none) :
    TokenClass.ofName text ∈ rule.classes := by
  have hname : TokenClass.ofName text ∈ TokenClass.names :=
    TokenClass.mem_names.2 (TokenClass.isName_ofName text)
  have hkeyword {k : Keyword} (hk : TokenClass.ofName text = .keyword k) :
      Keyword.ofName? text = some k := by
    rw [TokenClass.ofName_eq_keyword.1 hk, Keyword.ofName?_text]
  cases rule with
  | any => exact hname
  | fragment =>
    refine List.mem_filter.2 ⟨hname, ?_⟩
    simp only [ne_eq, decide_not, Bool.not_eq_true', decide_eq_false_iff_not]
    intro hk
    simp [refuses?, hkeyword hk] at h
  | enumValue =>
    refine List.mem_filter.2 ⟨hname, ?_⟩
    simp only [List.mem_cons, List.not_mem_nil, or_false, decide_eq_true_eq]
    rintro (hk | hk | hk) <;> simp [refuses?, hkeyword hk] at h

/-- The classes of the tokens that give an atom. -/
def Literal.classes : Literal → List TokenClass
  | int => [.int]
  | float => [.float]
  | string => [.string]
  | boolean => [.keyword .trueValue, .keyword .falseValue]
  | enumValue => NameRule.enumValue.classes
  | operation => [.keyword .query, .keyword .mutation, .keyword .subscription]
  | repeatable => [.keyword .repeatable]
  | executable => [.executable]
  | typeSystem => [.typeSystem]

theorem Literal.mem_classes {l : Literal} {token : Token} {atom : Atom}
    (h : l.read? token = some atom) : token.toClass ∈ l.classes := by
  -- Names have the classes of their words, so that the words a literal reads decide.
  cases l with
  | int => cases token <;> cases h <;> exact List.mem_singleton_self _
  | float => cases token <;> cases h <;> exact List.mem_singleton_self _
  | string => cases token <;> cases h <;> exact List.mem_singleton_self _
  | boolean =>
    cases token with
    | name text =>
      simp only [read?] at h
      split at h
      · next hk => rw [Token.toClass, TokenClass.ofName_eq_of_ofName? hk]; decide
      · next hk => rw [Token.toClass, TokenClass.ofName_eq_of_ofName? hk]; decide
      · cases h
    | _ => cases h
  | enumValue =>
    cases token with
    | name text =>
      simp only [read?] at h
      split at h
      · cases h
      · next hrefuse => exact NameRule.mem_classes (by simpa using hrefuse)
    | _ => cases h
  | operation =>
    cases token with
    | name text =>
      obtain ⟨operation, hfind, -⟩ := Option.map_eq_some_iff.1 h
      have htext := List.find?_some hfind
      rw [Token.toClass, ← eq_of_beq htext]
      cases operation <;> decide
    | _ => cases h
  | repeatable =>
    cases token with
    | name text =>
      simp only [read?] at h
      split at h
      · next hk => rw [Token.toClass, TokenClass.ofName_eq_of_ofName? hk]; decide
      · cases h
    | _ => cases h
  | executable =>
    cases token with
    | name text =>
      obtain ⟨location, hfind, -⟩ := Option.map_eq_some_iff.1 h
      have htext := List.find?_some hfind
      rw [Token.toClass, ← eq_of_beq htext, TokenClass.ofName_executable]
      decide
    | _ => cases h
  | typeSystem =>
    cases token with
    | name text =>
      obtain ⟨location, hfind, -⟩ := Option.map_eq_some_iff.1 h
      have htext := List.find?_some hfind
      rw [Token.toClass, ← eq_of_beq htext, TokenClass.ofName_typeSystem]
      decide
    | _ => cases h

/-! ### Starts of rules -/

/-- Whether a part may have no words. -/
def Part.mayBeEmpty : Part → Bool
  | gap _ => true
  | listed _ _ _ allowEmpty => allowEmpty
  | repeated _ _ _ => true
  | juxtaposed _ => true
  | demand _ => true
  | _ => false

/-- Whether an item may have no words. -/
def Item.mayBeEmpty : Item → Bool
  | part p => p.mayBeEmpty
  | group _ _ _ => true

section Starts

variable (ofGoal : Goal → List TokenClass)

/-- The classes that the words of a part may start with. -/
def Part.starts : Part → List TokenClass
  | punct p => [.punct p]
  | bracket p _ => [.punct p]
  | keyword k => [.keyword k]
  | name _ rule => rule.classes
  | spacedName _ => TokenClass.names
  | literal l => l.classes
  | child _ goal => ofGoal goal
  | opened _ _ goal => ofGoal goal
  | listed _ goal _ _ => ofGoal goal
  | repeated _ goal _ => ofGoal goal
  | separated _ goal delimiter => .punct delimiter :: ofGoal goal
  | _ => []

/-- The classes that the words of parts may start with. -/
def startsOfParts : List Part → List TokenClass
  | [] => []
  | part :: parts => part.starts ofGoal ++ if part.mayBeEmpty then startsOfParts parts else []

/-- The classes that the words of an item may start with. -/
def Item.starts : Item → List TokenClass
  | part p => p.starts ofGoal
  | group _ _ parts => startsOfParts ofGoal parts

/-- The classes that the words of items may start with. -/
def startsOfItems : List Item → List TokenClass
  | [] => []
  | item :: items => item.starts ofGoal ++ if item.mayBeEmpty then startsOfItems items else []

end Starts

/-- The classes that the words of a goal may start with, going through so many rules. -/
def Goal.startsWithin : Nat → Goal → List TokenClass
  | 0, _ => []
  | n + 1, goal => goal.productions.flatMap fun p => startsOfItems (startsWithin n) p.items

/-- The classes that the words of a goal may start with. -/
def Goal.starts : Goal → List TokenClass :=
  startsWithin 3

/-- Going through more rules finds nothing new. -/
theorem Production.starts_subset {goal : Goal} {p : Production} (h : p ∈ goal.productions) :
    startsOfItems Goal.starts p.items ⊆ goal.starts := by
  have hcheck := Production.check (fun p => (startsOfItems Goal.starts p.items).all fun c =>
    c ∈ startsOfItems (Goal.startsWithin 2) p.items) (by decide) p
  intro c hc
  exact List.mem_flatMap.2 ⟨p, h, by simpa using List.all_eq_true.1 hcheck c hc⟩

namespace Production

/-- Every readable production has words. -/
theorem not_mayBeEmpty {p : Production} (h : p.isReadable = true) :
    p.rule.items.all Item.mayBeEmpty = false := by
  have hcheck := check (fun p => !p.isReadable || !p.rule.items.all Item.mayBeEmpty)
    (by decide) p
  simpa [h] using hcheck

theorem mem_starts_items (p : Production) {c : TokenClass}
    (h : c ∈ startsOfItems Goal.starts p.rule.items) : c ∈ startsOfItems Goal.starts p.items := by
  unfold items
  split
  · exact List.mem_append_right _ h
  · exact h

theorem mem_starts_description (p : Production) (hdescribed : p.rule.described = true)
    {c : TokenClass} (h : c ∈ (Goal.kind .stringValue).starts) :
    c ∈ startsOfItems Goal.starts p.items := by
  rw [items, if_pos hdescribed]
  exact List.mem_append_left _ (List.mem_append_left _ h)

end Production

/-! ### Starts of derivations -/

namespace Shape

/-- Whether the words of shapes start with some classes only, and whether there may be none. -/
def StartIn (classes : List TokenClass) (empty : Bool) : List Shape → Prop
  | [] => empty = true
  | space _ :: shapes => StartIn classes empty shapes
  | own _ token _ _ :: _ => token.toClass ∈ classes
  | child _ goal :: _ => goal.starts ⊆ classes

theorem StartIn.append {a b : List Shape} {as bs : List TokenClass} {e f : Bool}
    (ha : StartIn as e a) (hb : StartIn bs f b) :
    StartIn (as ++ if e then bs else []) (e && f) (a ++ b) := by
  induction a with
  | nil =>
    obtain rfl : e = true := ha
    rw [List.nil_append, Bool.true_and, if_pos rfl]
    induction b with
    | nil => exact hb
    | cons shape b ih =>
      cases shape with
      | space piece => exact ih hb
      | own slot token spare gift => exact List.mem_append_right _ hb
      | child slot goal => exact fun c hc => List.mem_append_right _ (hb hc)
  | cons shape a ih =>
    cases shape with
    | space piece => exact ih ha
    | own slot token spare gift => exact List.mem_append_left _ ha
    | child slot goal => exact fun c hc => List.mem_append_left _ (ha hc)

theorem StartIn.mono {a : List Shape} {classes : List TokenClass} {e : Bool}
    (h : StartIn classes e a) : StartIn classes true a := by
  induction a with
  | nil => rfl
  | cons shape a ih =>
    cases shape with
    | space piece => exact ih h
    | _ => exact h

end Shape

open Shape (StartIn)

theorem Part.Spells.startIn {part : Part} {shapes : List Shape} (h : part.Spells shapes) :
    StartIn (part.starts Goal.starts) part.mayBeEmpty shapes := by
  cases h with
  | gap g => rfl
  | punct p => exact List.mem_singleton_self _
  | bracket p slot => exact List.mem_singleton_self _
  | keyword k => exact List.mem_singleton.2 (TokenClass.ofName_eq_keyword.2 rfl)
  | name slot rule text h => exact NameRule.mem_classes h
  | spacedName slot text => exact TokenClass.mem_names.2 (TokenClass.isName_ofName text)
  | literal l token atom h => exact Literal.mem_classes h
  | child slot goal => exact List.Subset.refl _
  | opened p slot goal => exact List.Subset.refl _
  | listed slot goal close allowEmpty n h =>
    cases n with
    | zero => exact h rfl
    | succ n =>
      rw [Shape.listed]
      split <;> exact List.Subset.refl _
  | repeated slot goal start n =>
    cases n with
    | zero => rfl
    | succ n => exact List.Subset.refl _
  | separated slot goal delimiter n => exact List.subset_cons_self _ _
  | spared slot goal delimiter n => exact List.mem_cons_self
  | demand p => rfl

theorem SpellParts.startIn {parts : List Part} {shapes : List Shape}
    (h : SpellParts parts shapes) :
    StartIn (startsOfParts Goal.starts parts) (parts.all Part.mayBeEmpty) shapes := by
  induction h with
  | nil => rfl
  | cons ha hb ih => exact ha.startIn.append ih

theorem Item.Spells.startIn {item : Item} {shapes : List Shape} (h : item.Spells shapes) :
    StartIn (item.starts Goal.starts) item.mayBeEmpty shapes := by
  cases h with
  | part h => exact h.startIn
  | skip guard presence parts => rfl
  | take guard presence h => exact h.startIn.mono

/-- Items start in the classes that are found by going through them. -/
theorem SpellItems.startIn {items : List Item} {shapes : List Shape}
    (h : SpellItems items shapes) :
    StartIn (startsOfItems Goal.starts items) (items.all Item.mayBeEmpty) shapes := by
  induction h with
  | nil => rfl
  | cons ha hb ih => exact ha.startIn.append ih

/-- Whether there are words, and the first of them is of one of some classes. -/
def Mark.StartIn (classes : List TokenClass) (marks : List Mark) : Prop :=
  ∃ mark rest, marks = mark :: rest ∧ mark.word.token.toClass ∈ classes

theorem Mark.StartIn.append {classes : List TokenClass} {marks : List Mark}
    (h : StartIn classes marks) (rest : List Mark) : StartIn classes (marks ++ rest) := by
  obtain ⟨mark, tail, rfl, hmem⟩ := h
  exact ⟨mark, tail ++ rest, rfl, hmem⟩

theorem Mark.StartIn.mono {as bs : List TokenClass} {marks : List Mark} (h : StartIn as marks)
    (hsub : as ⊆ bs) : StartIn bs marks := by
  obtain ⟨mark, tail, rfl, hmem⟩ := h
  exact ⟨mark, tail, rfl, hsub hmem⟩

/-- What elements start with is what their shapes start with. -/
theorem Elements.startIn {classes : List TokenClass} {empty : Bool} {elements : List Element}
    (hchildren : ∀ slot goal c, .child slot goal c ∈ elements → Mark.StartIn goal.starts c.marks)
    (h : StartIn classes empty (Elements.shapes elements)) :
    Mark.StartIn classes (Elements.marks elements) ∨
      Elements.marks elements = [] ∧ empty = true := by
  induction elements with
  | nil => exact .inr ⟨rfl, h⟩
  | cons element elements ih =>
    cases element with
    | space piece => exact ih (fun slot goal c hc => hchildren slot goal c (.tail _ hc)) h
    | own slot word spare gift => exact .inl ⟨⟨word, spare⟩, _, rfl, h⟩
    | child slot goal c =>
      exact .inl (((hchildren slot goal c (.head _)).mono h).append _)

/-- The words of a derivation start with one of the classes of its goal. -/
theorem Derives.startIn {goal : Goal} {marks : List Mark} {pieces : List Piece} {node : Node}
    (h : Derives goal marks pieces node) : Mark.StartIn goal.starts marks := by
  induction h with
  | @production goal p description elements hgoal hreadable hdescribed hspells hdemand hquery
      hdescription hchildren ihdescription ihchildren =>
    rw [Elements.marks_append]
    cases description with
    | none =>
      rcases Elements.startIn ihchildren hspells.startIn with h | ⟨-, hempty⟩
      · exact h.mono fun c hc => p.starts_subset hgoal (p.mem_starts_items hc)
      · rw [Production.not_mayBeEmpty hreadable] at hempty
        cases hempty
    | some c =>
      have hc : Mark.StartIn goal.starts c.marks := (ihdescription c rfl).mono fun t ht =>
        p.starts_subset hgoal (p.mem_starts_description (hdescribed rfl) ht)
      exact (hc.append _).append _
  | @query goal c comments hgoal hshorthand hchild ih =>
    have hmem : (Token.name Keyword.query.text).toClass ∈
        startsOfItems Goal.starts (Production.of .operationDefinition).items := by
      decide
    exact ⟨_, _, rfl, Production.starts_subset hgoal hmem⟩
  | nonNull comments h hkind ih => exact ih.append _

end GraphQLTree
