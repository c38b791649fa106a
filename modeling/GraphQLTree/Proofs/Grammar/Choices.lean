import GraphQLTree.Proofs.Grammar.Follow

/-!
# Choices of productions

Which production a reader chooses for a goal depends on the classes of the next two tokens only
(`Goal.choose_sample`), so that it chooses the right one is checked with a token of each class.
-/

namespace GraphQLTree

/-- A token of a class. -/
def TokenClass.sample : TokenClass → Token
  | punct p => .punct p
  | keyword k => .name k.text
  | executable => .name ExecutableLocation.query.text
  | typeSystem => .name TypeSystemLocation.schema.text
  | word => .name ""
  | int => .int ""
  | float => .float ""
  | string => .string ""
  | other => .invalid

/-- What a choice asks about a name is the same for two names. -/
structure Token.Alike (text text' : String) : Prop where
  keyword : Keyword.ofName? text = Keyword.ofName? text'
  executable : (ExecutableLocation.ofText? text).isSome = (ExecutableLocation.ofText? text').isSome
  typeSystem : (TypeSystemLocation.ofText? text).isSome = (TypeSystemLocation.ofText? text').isSome

theorem Token.exists_alike (text : String) :
    ∃ text', (TokenClass.ofName text).sample = name text' ∧ Alike text text' := by
  unfold TokenClass.ofName
  split
  · next k hk =>
    obtain rfl := Keyword.eq_text_of_ofName? hk
    exact ⟨k.text, rfl, rfl, rfl, rfl⟩
  · next hk =>
    split
    · next he =>
      obtain ⟨location, hfind⟩ := Option.isSome_iff_exists.1 he
      have htext := List.find?_some hfind
      refine ⟨_, rfl, hk.trans (by decide), he.trans (by decide), ?_⟩
      rw [← eq_of_beq htext]
      cases location <;> decide
    · next he =>
      rw [Bool.not_eq_true] at he
      split
      · next ht => 
        exact ⟨_, rfl, hk.trans (by decide), he.trans (by decide),
          ht.trans (by decide)⟩
      · next ht =>
        rw [Bool.not_eq_true] at ht
        exact ⟨_, rfl, hk.trans (by decide), he.trans (by decide),
          ht.trans (by decide)⟩

/-- A choice depends on the class of the first token. -/
theorem Goal.choose_sample (goal : Goal) (first : Token) (second : Option Token) :
    goal.choose (some first) second = goal.choose (some first.toClass.sample) second := by
  cases first with
  | name text =>
    obtain ⟨text', hsample, halike⟩ := Token.exists_alike text
    rw [Token.toClass, hsample]
    cases goal with
    | production p => rfl
    | selection => rfl
    | type => rfl
    | operation => rfl
    | inputValues => rfl
    | value family => simp only [choose, Choice.value, halike.keyword]
    | directiveLocation =>
      simp only [choose, Choice.directiveLocation, halike.executable, halike.typeSystem]
    | definition =>
      have htype (role : Role) : Choice.typeSystem? role (some (.name text)) =
          Choice.typeSystem? role (some (.name text')) := by
        simp [Choice.typeSystem?, Token.keyword?, halike.keyword]
      simp only [choose, Choice.definition, halike.keyword, htype]
  | string text => cases goal <;> rfl
  | blockString text => cases goal <;> rfl
  | _ => cases goal <;> rfl

/-- A choice depends on the class of the second token. -/
theorem Goal.choose_sample_second (goal : Goal) (first : Option Token) (second : Token) :
    goal.choose first (some second) = goal.choose first (some second.toClass.sample) := by
  have hselection : Choice.selection first (some second) =
      Choice.selection first (some second.toClass.sample) := by
    cases first with
    | none => rfl
    | some token =>
      cases token with
      | punct p =>
        cases p with
        | ellipsis =>
          cases second with
          | name text =>
            obtain ⟨text', hsample, halike⟩ := Token.exists_alike text
            simp only [Token.toClass, hsample, Choice.selection, halike.keyword]
          | _ => rfl
        | _ => rfl
      | _ => rfl
  have htype (role : Role) : Choice.typeSystem? role (some second) =
      Choice.typeSystem? role (some second.toClass.sample) := by
    cases second with
    | name text =>
      obtain ⟨text', hsample, halike⟩ := Token.exists_alike text
      simp [Token.toClass, hsample, Choice.typeSystem?, Token.keyword?, halike.keyword]
    | _ => rfl
  cases goal with
  | selection => exact hselection
  | definition => simp only [choose, Choice.definition, Choice.definition.described, htype]
  | _ => rfl

/-! ### Right choices -/

/-- Whether the second token is needed to tell a production from others. -/
def Production.needsSecond (p : Production) : Bool :=
  match p.rule.items with
  | .part (.punct .ellipsis) :: _ => true
  | .part (.keyword .extend) :: _ => true
  | _ => false

namespace Goal

/-- The goals that the first token decides about. -/
private def checkFirst (goal : Goal) : Bool :=
  goal.productions.all fun p => p.needsSecond ||
    (startsOfItems Goal.starts p.rule.items).all fun c =>
      goal.choose (some c.sample) none = .take p

private def checkSecond (goal : Goal) : Bool :=
  goal.productions.all fun p => !p.needsSecond ||
    (startsOfItems Goal.starts p.rule.items).all fun c =>
      (startsOfItems Goal.starts p.rule.items.tail).all fun d =>
        goal.choose (some c.sample) (some d.sample) = .take p

private def checkDescribed (goal : Goal) : Bool :=
  goal.productions.all fun p => !p.rule.described ||
    (startsOfItems Goal.starts p.rule.items).all fun d =>
      goal.choose (some TokenClass.string.sample) (some d.sample) = .take p

/-- A name starts a field, whatever is behind it. -/
private theorem choose_field {c : TokenClass} (hc : c.isName = true) (second : Option Token) :
    selection.choose (some c.sample) second = selection.choose (some c.sample) none := by
  cases c <;> first | rfl | cases hc

/-- A brace or a keyword starts a definition, whatever is behind it, unless it is `extend`. -/
private theorem choose_definition {c : TokenClass}
    (hc : (match c with
      | .punct _ => true
      | .keyword k => k ≠ .extend
      | _ => false) = true) (second : Option Token) :
    definition.choose (some c.sample) second = definition.choose (some c.sample) none := by
  cases c with
  | punct p => cases p <;> rfl
  | keyword k =>
    simp only [choose, Choice.definition, TokenClass.sample, Keyword.ofName?_text]
    cases k <;> first | rfl | simp at hc
  | _ => cases hc

/-- The first token is enough for most productions. -/
theorem choose_of_first {goal : Goal} {p : Production} (hp : p ∈ goal.productions)
    (hneeds : p.needsSecond = false) {c : TokenClass}
    (hc : c ∈ startsOfItems Goal.starts p.rule.items) (second : Option Token) :
    goal.choose (some c.sample) second = .take p := by
  have hcheck (h : goal.checkFirst = true) : goal.choose (some c.sample) none = .take p := by
    have := List.all_eq_true.1 h p hp
    rw [hneeds, Bool.false_or, List.all_eq_true] at this
    exact of_decide_eq_true (this c hc)
  cases goal with
  | production q =>
    obtain rfl := List.mem_singleton.1 hp
    rfl
  | operation => exact hcheck (by decide)
  | inputValues => exact hcheck (by decide)
  | value family => cases family <;> exact hcheck (by decide)
  | type => exact hcheck (by decide)
  | directiveLocation => exact hcheck (by decide)
  | selection =>
    have hname : ∀ p ∈ selection.productions, p.needsSecond = false →
        ∀ c ∈ startsOfItems Goal.starts p.rule.items, c.isName = true := by
      decide
    exact (choose_field (hname p hp hneeds c hc) second).trans (hcheck (by decide))
  | definition =>
    have hkeyword : ∀ p ∈ definition.productions, p.needsSecond = false →
        ∀ c ∈ startsOfItems Goal.starts p.rule.items, (match c with
          | .punct _ => true
          | .keyword k => decide (k ≠ .extend)
          | _ => false) = true := by
      decide
    exact (choose_definition (hkeyword p hp hneeds c hc) second).trans
      (hcheck (by decide))

/-- Two tokens are enough for the other productions. -/
theorem choose_of_second {goal : Goal} {p : Production} (hp : p ∈ goal.productions)
    (hneeds : p.needsSecond = true) {c d : TokenClass}
    (hc : c ∈ startsOfItems Goal.starts p.rule.items)
    (hd : d ∈ startsOfItems Goal.starts p.rule.items.tail) :
    goal.choose (some c.sample) (some d.sample) = .take p := by
  have hcheck (h : goal.checkSecond = true) :
      goal.choose (some c.sample) (some d.sample) = .take p := by
    have := List.all_eq_true.1 h p hp
    rw [hneeds, Bool.not_true, Bool.false_or, List.all_eq_true] at this
    exact of_decide_eq_true (List.all_eq_true.1 (this c hc) d hd)
  cases goal with
  | production q =>
    obtain rfl := List.mem_singleton.1 hp
    rfl
  | value family => cases family <;> exact hcheck (by decide)
  | _ => exact hcheck (by decide)

/-- What is behind a description tells what it describes. -/
theorem choose_of_description {goal : Goal} {p : Production} (hp : p ∈ goal.productions)
    (hdescribed : p.rule.described = true) {d : TokenClass}
    (hd : d ∈ startsOfItems Goal.starts p.rule.items) :
    goal.choose (some TokenClass.string.sample) (some d.sample) = .take p := by
  have hcheck (h : goal.checkDescribed = true) :
      goal.choose (some TokenClass.string.sample) (some d.sample) = .take p := by
    have := List.all_eq_true.1 h p hp
    rw [hdescribed, Bool.not_true, Bool.false_or, List.all_eq_true] at this
    exact of_decide_eq_true (this d hd)
  cases goal with
  | production q =>
    obtain rfl := List.mem_singleton.1 hp
    rfl
  | value family => cases family <;> exact hcheck (by decide)
  | _ => exact hcheck (by decide)

end Goal

end GraphQLTree
