import GraphQLTree.Grammar.Parser
import GraphQLTree.Proofs.Grammar.Starts

/-!
# What is left of lexemes

A reader goes through lexemes from the first on and never back, so what it leaves is an end of them,
whether it is done or has failed (`Goal.read_leaves`). It never goes past characters that form no token:
what it has taken are valid tokens (`Goal.read_passes`).
-/

namespace GraphQLTree

/-! ### Tokens that are taken -/

/-- Whether the tokens between some lexemes and the rest of them have a property. -/
def Between (lexemes rest : List Lexeme) (P : List Token → Prop) : Prop :=
  ∃ taken, lexemes = taken ++ rest ∧ P (taken.map Lexeme.token)

namespace Between

variable {lexemes middle rest : List Lexeme} {P Q R : List Token → Prop}

theorem nil (h : P []) : Between lexemes lexemes P :=
  ⟨[], rfl, h⟩

theorem imp (h : Between lexemes rest P) (himp : ∀ tokens, P tokens → Q tokens) :
    Between lexemes rest Q := by
  obtain ⟨taken, rfl, h⟩ := h
  exact ⟨taken, rfl, himp _ h⟩

theorem append (h : Between lexemes middle P) (h' : Between middle rest Q)
    (himp : ∀ s t, P s → Q t → R (s ++ t)) : Between lexemes rest R := by
  obtain ⟨s, rfl, hs⟩ := h
  obtain ⟨t, rfl, ht⟩ := h'
  exact ⟨s ++ t, (List.append_assoc ..).symm, by rw [List.map_append]; exact himp _ _ hs ht⟩

end Between

namespace Outcome

variable {α β : Type}

/-- Whether what is left is an end of some lexemes. -/
def Leaves (lexemes : List Lexeme) : Outcome α → Prop
  | done _ rest => rest <:+ lexemes
  | failed _ rest => rest <:+ lexemes
  | exhausted => True

theorem Leaves.mono {lexemes lexemes' : List Lexeme} {outcome : Outcome α}
    (h : outcome.Leaves lexemes) (hsuffix : lexemes <:+ lexemes') : outcome.Leaves lexemes' := by
  cases outcome with
  | done result rest => exact List.IsSuffix.trans h hsuffix
  | failed failure rest => exact List.IsSuffix.trans h hsuffix
  | exhausted => trivial

theorem Leaves.andThen {lexemes : List Lexeme} {outcome : Outcome α} (h : outcome.Leaves lexemes)
    {next : α → List Lexeme → Outcome β}
    (hnext : ∀ result rest, (next result rest).Leaves rest) :
    (outcome.andThen next).Leaves lexemes := by
  cases outcome with
  | done result rest => exact (hnext result rest).mono h
  | failed failure rest => exact h
  | exhausted => trivial

theorem Leaves.map {lexemes : List Lexeme} {outcome : Outcome α} (h : outcome.Leaves lexemes)
    (f : α → β) : (outcome.map f).Leaves lexemes :=
  h.andThen fun _ rest => List.suffix_refl rest

/-- Whether what is left is an end of some lexemes, and the tokens in front of it have a property. -/
def Passes (P : Token → Prop) (lexemes : List Lexeme) : Outcome α → Prop
  | done _ rest => Between lexemes rest fun tokens => ∀ token ∈ tokens, P token
  | failed _ rest => Between lexemes rest fun tokens => ∀ token ∈ tokens, P token
  | exhausted => True

namespace Passes

variable {P : Token → Prop} {lexemes rest : List Lexeme} {outcome : Outcome α}

/-- Nothing is taken. -/
theorem nil {lexemes : List Lexeme} : Between lexemes lexemes fun tokens => ∀ token ∈ tokens, P token :=
  .nil (List.forall_mem_nil _)

/-- One token is taken. -/
theorem singleton {lexeme : Lexeme} (h : P lexeme.token) (rest : List Lexeme) :
    Between (lexeme :: rest) rest fun tokens => ∀ token ∈ tokens, P token :=
  ⟨[lexeme], rfl, List.forall_mem_singleton.2 h⟩

/-- Tokens are taken one after the other. -/
theorem append {middle : List Lexeme}
    (h : Between lexemes middle fun tokens => ∀ token ∈ tokens, P token)
    (h' : Between middle rest fun tokens => ∀ token ∈ tokens, P token) :
    Between lexemes rest fun tokens => ∀ token ∈ tokens, P token :=
  Between.append h h' fun _ _ hs ht => List.forall_mem_append.2 ⟨hs, ht⟩

theorem behind (h : outcome.Passes P rest)
    (hbetween : Between lexemes rest fun tokens => ∀ token ∈ tokens, P token) :
    outcome.Passes P lexemes := by
  cases outcome with
  | done result l => exact append hbetween h
  | failed failure l => exact append hbetween h
  | exhausted => trivial

theorem andThen (h : outcome.Passes P lexemes) {next : α → List Lexeme → Outcome β}
    (hnext : ∀ result rest, (next result rest).Passes P rest) :
    (outcome.andThen next).Passes P lexemes := by
  cases outcome with
  | done result rest => exact (hnext result rest).behind h
  | failed failure rest => exact h
  | exhausted => trivial

theorem map (h : outcome.Passes P lexemes) (f : α → β) : (outcome.map f).Passes P lexemes :=
  h.andThen fun _ _ => nil

theorem leaves (h : outcome.Passes P lexemes) : outcome.Leaves lexemes := by
  cases outcome with
  | done result rest =>
    obtain ⟨taken, rfl, -⟩ := h
    exact List.suffix_append taken rest
  | failed failure rest =>
    obtain ⟨taken, rfl, -⟩ := h
    exact List.suffix_append taken rest
  | exhausted => trivial

end Passes

/-- An end of some lexemes is left behind any tokens. -/
theorem Leaves.passes {lexemes : List Lexeme} {outcome : Outcome α} (h : outcome.Leaves lexemes) :
    outcome.Passes (fun _ => True) lexemes := by
  cases outcome with
  | done result rest =>
    obtain ⟨taken, rfl⟩ := h
    exact ⟨taken, rfl, fun _ _ => trivial⟩
  | failed failure rest =>
    obtain ⟨taken, rfl⟩ := h
    exact ⟨taken, rfl, fun _ _ => trivial⟩
  | exhausted => trivial

end Outcome

open Outcome (Passes)

/-! ### Valid tokens

Each combinator takes tokens that have a property that all valid tokens have. -/

section Valid

variable {P : Token → Prop} (hvalid : ∀ token, token ≠ .invalid → P token)

include hvalid in
theorem takeToken_passes {accepts : Token → Bool} (haccepts : accepts .invalid = false)
    (failure : Failure) (lexemes : List Lexeme) :
    (takeToken accepts failure lexemes).Passes P lexemes := by
  cases lexemes with
  | nil => exact .nil
  | cons lexeme rest =>
    rw [takeToken]
    split
    · next h =>
      refine .singleton (hvalid _ fun hinvalid => ?_) rest
      rw [hinvalid, haccepts] at h
      cases h
    · exact .nil

section Repetition

variable {sub : List Lexeme → Outcome Node} (hsub : ∀ lexemes, (sub lexemes).Passes P lexemes)
include hsub

theorem readUntil_passes (stop : List Lexeme → Bool) (depth : Nat) (lexemes : List Lexeme) :
    (readUntil sub stop depth lexemes).Passes P lexemes := by
  induction depth generalizing lexemes with
  | zero =>
    rw [readUntil]
    split
    · exact .nil
    · trivial
  | succ depth ih =>
    rw [readUntil]
    split
    · exact .nil
    · exact (hsub lexemes).andThen fun node rest => (ih rest).map _

include hvalid in
theorem readSeparated_passes (delimiter : Punctuator) (depth : Nat) (lexemes : List Lexeme) :
    (readSeparated sub delimiter depth lexemes).Passes P lexemes := by
  induction depth generalizing lexemes with
  | zero => trivial
  | succ depth ih =>
    rw [readSeparated]
    refine (hsub lexemes).andThen fun node rest => ?_
    cases rest with
    | nil => exact .nil
    | cons lexeme rest =>
      simp only
      split
      · next h => exact ((ih rest).map _).behind (Passes.singleton (hvalid _ (by simp [h])) rest)
      · exact .nil

end Repetition

section Rules

variable {sub : Goal → List Lexeme → Outcome Node}
  (hsub : ∀ goal lexemes, (sub goal lexemes).Passes P lexemes) (depth : Nat) (kind : Kind)
include hvalid

theorem Part.readName_passes (draft : Draft) (lexemes : List Lexeme) (slot : Slot)
    (rule : NameRule) : (Part.read.readName kind draft lexemes slot rule).Passes P lexemes := by
  unfold Part.read.readName
  split
  · split
    · exact .nil
    · exact .singleton (hvalid _ Token.noConfusion) _
  · exact .nil

include hsub

theorem Part.read_passes (part : Part) (draft : Draft) (lexemes : List Lexeme) :
    (part.read sub depth kind draft lexemes).Passes P lexemes := by
  cases part with
  | gap g => exact .nil
  | punct p => exact (takeToken_passes hvalid (by simp) ..).map _
  | bracket p slot => exact (takeToken_passes hvalid (by simp) ..).map _
  | keyword k => exact (takeToken_passes hvalid (by simp [Terminal.accepts]) ..).map _
  | name slot rule => exact readName_passes hvalid kind draft lexemes slot rule
  | spacedName slot => exact readName_passes hvalid kind draft lexemes slot .any
  | literal l => exact (takeToken_passes hvalid (by cases l <;> rfl) ..).map _
  | child slot goal => exact (hsub goal lexemes).map _
  | opened p slot goal =>
    rw [Part.read]
    split
    · exact (hsub goal lexemes).map _
    · exact .nil
  | listed slot goal close allowEmpty =>
    rw [Part.read]
    split
    · exact .nil
    · exact (readUntil_passes (hsub goal) _ depth lexemes).map _
  | repeated slot goal start => exact (readUntil_passes (hsub goal) _ depth lexemes).map _
  | separated slot goal delimiter =>
    have hskip : Between lexemes (draft.skipDelimiter delimiter lexemes).2
        fun tokens => ∀ token ∈ tokens, P token := by
      cases lexemes with
      | nil => exact Passes.nil
      | cons lexeme rest =>
        rw [Draft.skipDelimiter.eq_def]
        simp only
        split
        · next h => exact Passes.singleton (hvalid _ (by simp [h])) rest
        · exact Passes.nil
    exact ((readSeparated_passes hvalid (hsub goal) delimiter depth _).map _).behind hskip
  | juxtaposed slot => exact .nil
  | demand p =>
    rw [Part.read]
    split <;> exact .nil

theorem readParts_passes (parts : List Part) (draft : Draft) (lexemes : List Lexeme) :
    (readParts sub depth kind parts draft lexemes).Passes P lexemes := by
  induction parts generalizing draft lexemes with
  | nil => exact .nil
  | cons part parts ih => exact (part.read_passes hvalid hsub depth kind draft lexemes).andThen ih

theorem readItems_passes (items : List Item) (draft : Draft) (lexemes : List Lexeme) :
    (readItems sub depth kind items draft lexemes).Passes P lexemes := by
  induction items generalizing draft lexemes with
  | nil => exact .nil
  | cons item items ih =>
    refine Outcome.Passes.andThen ?_ ih
    cases item with
    | part p => exact p.read_passes hvalid hsub depth kind draft lexemes
    | group guard presence parts =>
      rw [Item.read]
      split
      · exact readParts_passes hvalid hsub depth kind parts draft lexemes
      · exact .nil

end Rules

end Valid

/-! ### Goals -/

namespace Goal

/-- Whether the production for a goal is chosen by the token behind some token. -/
def DecidesLate (goal : Goal) (token : Token) : Prop :=
  goal = selection ∧ token = .punct .ellipsis ∨
    goal = definition ∧
      (token = .name Keyword.extend.text ∨ Terminal.string.accepts token = true)

theorem DecidesLate.ne_invalid {goal : Goal} {token : Token} (h : goal.DecidesLate token) :
    token ≠ .invalid := by
  rintro rfl
  rcases h with ⟨-, h⟩ | ⟨-, h | h⟩ <;> cases h

/-- Where the keyword of a definition is refused, no more tokens are skipped than the reader says. -/
private theorem skip_of_typeSystem? {role : Role} {token : Option Token} {skip skip' : Nat}
    {construct : Construct} {expected expected' : Option Expectation}
    (h : (Choice.typeSystem? role token).getD (.refuse skip' .definition expected') =
      .refuse skip construct expected) : skip = skip' := by
  cases hchoice : Choice.typeSystem? role token with
  | none =>
    rw [hchoice] at h
    injection h with hskip
    exact hskip.symm
  | some choice =>
    obtain ⟨t, -, k, -, kind, -, rfl⟩ := by
      simpa [Choice.typeSystem?, Option.bind_eq_some_iff] using hchoice
    rw [hchoice] at h
    cases h

/-- A choice is refused at the first token, or at the second one where that is the one that chooses. -/
theorem skip_of_refuse {goal : Goal} {first second : Option Token} {skip : Nat}
    {construct : Construct} {expected : Option Expectation}
    (h : goal.choose first second = .refuse skip construct expected) :
    skip = 0 ∨ skip = 1 ∧ ∃ token, first = some token ∧ goal.DecidesLate token := by
  cases goal with
  | production p => cases h
  | operation =>
    simp only [choose] at h
    split at h <;> cases h
  | inputValues =>
    simp only [choose] at h
    split at h <;> cases h
  | value family =>
    cases family <;> simp only [choose, Choice.value] at h <;> split at h <;> (try split at h) <;>
      cases h <;> exact .inl rfl
  | selection =>
    simp only [choose, Choice.selection] at h
    split at h
    · cases h
    · split at h <;> cases h
    · cases h
    · cases h
    · cases h
      exact .inr ⟨rfl, _, rfl, .inl ⟨rfl, rfl⟩⟩
    · cases h
      exact .inl rfl
  | type =>
    simp only [choose, Choice.type] at h
    split at h <;> cases h
    exact .inl rfl
  | directiveLocation =>
    simp only [choose, Choice.directiveLocation] at h
    split at h <;> (try split at h) <;> (try split at h) <;> cases h <;> exact .inl rfl
  | definition =>
    simp only [choose, Choice.definition, Choice.definition.described] at h
    split at h
    · cases h
    · exact .inr ⟨skip_of_typeSystem? h, _, rfl, .inr ⟨rfl, .inr rfl⟩⟩
    · exact .inr ⟨skip_of_typeSystem? h, _, rfl, .inr ⟨rfl, .inr rfl⟩⟩
    · split at h
      · cases h
      · cases h
      · cases h
      · cases h
      · next hextend =>
        obtain rfl := Keyword.eq_text_of_ofName? hextend
        exact .inr ⟨skip_of_typeSystem? h, _, rfl, .inr ⟨rfl, .inl rfl⟩⟩
      · exact .inl (skip_of_typeSystem? h)
    · cases h
      exact .inl rfl

/-- A reader of a goal takes valid tokens only. -/
theorem read_passes {P : Token → Prop} (hvalid : ∀ token, token ≠ .invalid → P token) (depth : Nat)
    (goal : Goal) (lexemes : List Lexeme) : (goal.read depth lexemes).Passes P lexemes := by
  induction depth generalizing goal lexemes with
  | zero => trivial
  | succ depth ih =>
    rw [Goal.read]
    split
    · next hrefuse =>
      rcases skip_of_refuse hrefuse with rfl | ⟨rfl, token, hfirst, hlate⟩
      · exact .nil
      · cases lexemes with
        | nil => cases hfirst
        | cons lexeme rest =>
          obtain rfl := Option.some.inj hfirst
          exact .singleton (hvalid _ hlate.ne_invalid) rest
    · next p hp =>
      have hread : (p.read (Goal.read depth) depth lexemes).Passes P lexemes :=
        (readItems_passes hvalid ih depth p.kind p.items _ lexemes).map _
      simp only
      split
      · refine hread.andThen fun node rest => ?_
        unfold wrapType
        split
        · exact .singleton (hvalid _ Token.noConfusion) _
        · exact .nil
      · exact hread

end Goal

/-- A reader of a target takes valid tokens only. -/
theorem TokenStream.read_passes {P : Token → Prop} (hvalid : ∀ token, token ≠ .invalid → P token)
    (stream : TokenStream) (target : Target) : (stream.read target).Passes P stream.lexemes := by
  cases target with
  | goal g => exact Goal.read_passes hvalid _ g _
  | document =>
    refine Outcome.Passes.andThen (readUntil_passes (Goal.read_passes hvalid _ _) _ _ _)
      fun definitions rest => ?_
    split <;> exact .nil

/-! ### Any tokens -/

theorem readUntil_leaves {sub : List Lexeme → Outcome Node}
    (hsub : ∀ lexemes, (sub lexemes).Leaves lexemes) (stop : List Lexeme → Bool) (depth : Nat)
    (lexemes : List Lexeme) : (readUntil sub stop depth lexemes).Leaves lexemes :=
  (readUntil_passes (fun lexemes => (hsub lexemes).passes) stop depth lexemes).leaves

theorem Part.readName_leaves (kind : Kind) (draft : Draft) (lexemes : List Lexeme) (slot : Slot)
    (rule : NameRule) : (Part.read.readName kind draft lexemes slot rule).Leaves lexemes :=
  (readName_passes (fun _ _ => trivial) kind draft lexemes slot rule).leaves (P := fun _ => True)

section Rules

variable {sub : Goal → List Lexeme → Outcome Node}
  (hsub : ∀ goal lexemes, (sub goal lexemes).Leaves lexemes) (depth : Nat) (kind : Kind)
include hsub

theorem readParts_leaves (parts : List Part) (draft : Draft) (lexemes : List Lexeme) :
    (readParts sub depth kind parts draft lexemes).Leaves lexemes :=
  (readParts_passes (fun _ _ => trivial) (fun goal lexemes => (hsub goal lexemes).passes) depth kind
    parts draft lexemes).leaves

theorem readItems_leaves (items : List Item) (draft : Draft) (lexemes : List Lexeme) :
    (readItems sub depth kind items draft lexemes).Leaves lexemes :=
  (readItems_passes (fun _ _ => trivial) (fun goal lexemes => (hsub goal lexemes).passes) depth kind
    items draft lexemes).leaves

end Rules

/-- A reader leaves an end of the lexemes. -/
theorem Goal.read_leaves (depth : Nat) (goal : Goal) (lexemes : List Lexeme) :
    (goal.read depth lexemes).Leaves lexemes :=
  (goal.read_passes (fun _ hvalid => hvalid) depth lexemes).leaves

/-- A reader of a target leaves an end of the stream's lexemes. -/
theorem TokenStream.read_leaves (stream : TokenStream) (target : Target) :
    (stream.read target).Leaves stream.lexemes :=
  (stream.read_passes (fun _ hvalid => hvalid) target).leaves

end GraphQLTree
