import GraphQLTree.Proofs.Grammar.Rest
import GraphQLTree.Proofs.Grammar.Starts

/-!
# How far a reader looks

A reader that leaves some lexemes has looked at the first of them at most: if others are left whose first
token is the same, it does the same (`Goal.read_agree`). The two decisions that look at the second token
are made where the first one is taken in any case.
-/

namespace GraphQLTree

theorem firstToken_append {rest rest' : List Lexeme} (h : firstToken rest' = firstToken rest)
    (taken : List Lexeme) : firstToken (taken ++ rest') = firstToken (taken ++ rest) := by
  cases taken with
  | nil => exact h
  | cons lexeme taken => rfl

theorem startsWith_congr {rest rest' : List Lexeme} (h : firstToken rest' = firstToken rest)
    (accepts : Token → Bool) : startsWith accepts rest' = startsWith accepts rest := by
  rw [startsWith, startsWith, h]

/-- Lexemes with the same first token are both empty or both not. -/
theorem eq_nil_or_cons_of_firstToken {rest rest' : List Lexeme} (h : firstToken rest' = firstToken rest) :
    rest = [] ∧ rest' = [] ∨ ∃ lexeme lexeme' l l', rest = lexeme :: l ∧ rest' = lexeme' :: l' ∧
      lexeme'.token = lexeme.token := by
  cases rest with
  | nil =>
    cases rest' with
    | nil => exact .inl ⟨rfl, rfl⟩
    | cons lexeme' l' => cases h
  | cons lexeme l =>
    cases rest' with
    | nil => cases h
    | cons lexeme' l' => exact .inr ⟨_, _, _, _, rfl, rfl, Option.some.inj h⟩

/-! ### Agreement -/

namespace Outcome

variable {α β : Type}

/-- Whether an outcome that leaves just some lexemes becomes another one when others are left. -/
structure MovesTo (outcome outcome' : Outcome α) (rest rest' : List Lexeme) : Prop where
  done : ∀ {result : α}, outcome = .done result rest → outcome' = .done result rest'
  failed : ∀ {failure : Failure}, outcome = .failed failure rest → outcome' = .failed failure rest'

theorem MovesTo.exhausted {outcome' : Outcome α} {rest rest' : List Lexeme} :
    (exhausted : Outcome α).MovesTo outcome' rest rest' where
  done h := by cases h
  failed h := by cases h

/-- What leaves less has nothing to do with the lexemes. -/
theorem MovesTo.of_length_lt {outcome outcome' : Outcome α} {l rest rest' : List Lexeme}
    (h : outcome.Leaves l) (hlt : l.length < rest.length) : outcome.MovesTo outcome' rest rest' where
  done hdone := by
    rw [hdone] at h
    have hle := List.IsSuffix.length_le h
    omega
  failed hfailed := by
    rw [hfailed] at h
    have hle := List.IsSuffix.length_le h
    omega

end Outcome

open Outcome (MovesTo)

/-- Whether two readers do the same where the lexemes that they leave have the same first token. -/
structure Agree {α : Type} (read read' : List Lexeme → Outcome α) : Prop where
  leaves : ∀ lexemes, (read lexemes).Leaves lexemes
  moves : ∀ taken {rest rest' : List Lexeme}, firstToken rest' = firstToken rest →
    (read (taken ++ rest)).MovesTo (read' (taken ++ rest')) rest rest'

namespace Agree

variable {α β : Type} {read read' : List Lexeme → Outcome α}

/-- Agreeing with a reader that doesn't run out of depth is doing the same. -/
theorem eq_of_ne_exhausted (h : Agree read read') {lexemes : List Lexeme}
    (hne : read lexemes ≠ .exhausted) : read' lexemes = read lexemes := by
  have hleaves := h.leaves lexemes
  cases hread : read lexemes with
  | exhausted => exact absurd hread hne
  | done result rest =>
    rw [hread] at hleaves
    obtain ⟨taken, rfl⟩ := hleaves
    exact (h.moves taken rfl).done hread
  | failed failure rest =>
    rw [hread] at hleaves
    obtain ⟨taken, rfl⟩ := hleaves
    exact (h.moves taken rfl).failed hread

theorem done (result : α) : Agree (.done result) (.done result) where
  leaves lexemes := List.suffix_refl lexemes
  moves taken rest rest' _ := by
    refine ⟨fun h => ?_, fun h => by cases h⟩
    injection h with hresult hrest
    obtain rfl := List.append_left_eq_self.1 hrest
    rw [hresult]
    rfl

/-- A failure that the first token tells. -/
theorem failed (failure : Option Token → Failure) :
    Agree (fun lexemes => (.failed (failure (firstToken lexemes)) lexemes : Outcome α))
      fun lexemes => .failed (failure (firstToken lexemes)) lexemes where
  leaves lexemes := List.suffix_refl lexemes
  moves taken rest rest' hfirst := by
    refine ⟨fun h => (by cases h), fun h => ?_⟩
    injection h with hfailure hrest
    obtain rfl := List.append_left_eq_self.1 hrest
    rw [← hfailure, List.nil_append, hfirst]
    rfl

theorem exhausted : Agree (fun _ => (.exhausted : Outcome α)) read' where
  leaves _ := trivial
  moves _ _ _ _ := .exhausted

/-- Readers that agree one after the other agree. -/
theorem andThen (h : Agree read read') {next next' : α → List Lexeme → Outcome β}
    (hnext : ∀ result, Agree (next result) (next' result)) :
    Agree (fun lexemes => (read lexemes).andThen next) fun lexemes => (read' lexemes).andThen next' where
  leaves lexemes := (h.leaves lexemes).andThen fun result rest => (hnext result).leaves rest
  moves taken rest rest' hfirst := by
    have hleaves := h.leaves (taken ++ rest)
    cases hread : read (taken ++ rest) with
    | exhausted => exact .exhausted
    | failed failure l =>
      refine ⟨fun h => (by cases h), fun hfailed => ?_⟩
      injection hfailed with hf hl
      obtain rfl := hl
      rw [(h.moves taken hfirst).failed hread]
      rw [hf]
      rfl
    | done result l =>
      by_cases hsuffix : rest <:+ l
      · -- The first reader leaves what the second one takes.
        rw [hread] at hleaves
        obtain ⟨x, rfl⟩ := hsuffix
        obtain ⟨y, hy⟩ := hleaves
        rw [← List.append_assoc] at hy
        obtain rfl := List.append_cancel_right hy
        rw [List.append_assoc] at hread ⊢
        have hread' := (h.moves y (firstToken_append hfirst x)).done hread
        rw [hread']
        exact (hnext result).moves x hfirst
      · have hnot := (hnext result).leaves l
        refine ⟨fun hdone => absurd ?_ hsuffix, fun hfailed => absurd ?_ hsuffix⟩
        · rw [show next result l = _ from hdone] at hnot
          exact hnot
        · rw [show next result l = _ from hfailed] at hnot
          exact hnot

theorem map (h : Agree read read') (f : α → β) :
    Agree (fun lexemes => (read lexemes).map f) fun lexemes => (read' lexemes).map f :=
  h.andThen fun result => done (f result)

/-- A decision by the first token. -/
theorem ite {c : List Lexeme → Bool}
    (hc : ∀ {l l' : List Lexeme}, firstToken l' = firstToken l → c l' = c l)
    {other other' : List Lexeme → Outcome α} (h : Agree read read') (hother : Agree other other') :
    Agree (fun lexemes => if c lexemes then read lexemes else other lexemes)
      fun lexemes => if c lexemes then read' lexemes else other' lexemes where
  leaves lexemes := by
    split
    · exact h.leaves lexemes
    · exact hother.leaves lexemes
  moves taken rest rest' hfirst := by
    rw [hc (firstToken_append hfirst taken)]
    split
    · exact h.moves taken hfirst
    · exact hother.moves taken hfirst

/-- A decision by the first token, which is taken. -/
theorem step (accepts : Token → Bool) {next next' : Lexeme → List Lexeme → Outcome α}
    (hnext : ∀ lexeme, Agree (next lexeme) (next' lexeme)) {other other' : List Lexeme → Outcome α}
    (hother : Agree other other')
    (hread : ∀ lexemes, read lexemes =
      match lexemes with
      | lexeme :: l => if accepts lexeme.token then next lexeme l else other (lexeme :: l)
      | [] => other [])
    (hread' : ∀ lexemes, read' lexemes =
      match lexemes with
      | lexeme :: l => if accepts lexeme.token then next' lexeme l else other' (lexeme :: l)
      | [] => other' []) :
    Agree read read' where
  leaves lexemes := by
    rw [hread]
    cases lexemes with
    | nil => exact hother.leaves []
    | cons lexeme l =>
      simp only
      split
      · exact ((hnext lexeme).leaves l).mono (List.suffix_cons lexeme l)
      · exact hother.leaves _
  moves taken rest rest' hfirst := by
    rw [hread, hread']
    cases taken with
    | cons lexeme taken =>
      simp only [List.cons_append]
      split
      · exact (hnext lexeme).moves taken hfirst
      · exact hother.moves (lexeme :: taken) hfirst
    | nil =>
      rcases eq_nil_or_cons_of_firstToken hfirst with ⟨rfl, rfl⟩ | ⟨lexeme, lexeme', l, l', rfl, rfl, htoken⟩
      · exact hother.moves [] rfl
      · simp only [List.nil_append, htoken]
        split
        · exact .of_length_lt ((hnext lexeme).leaves l) (Nat.lt_succ_self _)
        · exact hother.moves [] hfirst

end Agree

/-- Whether an item is decided about by two tokens. -/
def Item.looksAhead : Item → Bool
  | part _ => false
  | group guard _ _ => guard.second.isSome

/-! ### Tokens and repetition -/

theorem takeToken_agree (accepts : Token → Bool) (failure : Failure) :
    Agree (takeToken accepts failure) (takeToken accepts failure) := by
  have hread (lexemes : List Lexeme) : takeToken accepts failure lexemes =
      match lexemes with
      | lexeme :: l => if accepts lexeme.token then .done lexeme l else .failed failure (lexeme :: l)
      | [] => .failed failure [] := by
    cases lexemes <;> rfl
  exact .step accepts (fun lexeme => .done lexeme) (.failed fun _ => failure) hread hread

section Repetition

variable {sub sub' : List Lexeme → Outcome Node} (hsub : Agree sub sub')
include hsub

theorem readUntil_agree {stop : List Lexeme → Bool}
    (hstop : ∀ {l l' : List Lexeme}, firstToken l' = firstToken l → stop l' = stop l) {depth depth' : Nat}
    (hle : depth ≤ depth') : Agree (readUntil sub stop depth) (readUntil sub' stop depth') := by
  have hzero (sub : List Lexeme → Outcome Node) : readUntil sub stop 0 =
      fun l => if stop l then .done [] l else .exhausted := by
    funext l
    rw [readUntil]
  have hsucc (sub : List Lexeme → Outcome Node) (depth : Nat) : readUntil sub stop (depth + 1) =
      fun l => if stop l then .done [] l else (sub l).andThen fun node rest =>
        (readUntil sub stop depth rest).map (node :: ·) := by
    funext l
    rw [readUntil]
  induction depth generalizing depth' with
  | zero =>
    rw [hzero]
    cases depth' with
    | zero => rw [hzero]; exact .ite hstop (.done []) .exhausted
    | succ depth' => rw [hsucc]; exact .ite hstop (.done []) .exhausted
  | succ depth ih =>
    cases depth' with
    | zero => omega
    | succ depth' =>
      rw [hsucc, hsucc]
      exact .ite hstop (.done []) (hsub.andThen fun node => (ih (by omega)).map _)

theorem readSeparated_agree (delimiter : Punctuator) {depth depth' : Nat} (hle : depth ≤ depth') :
    Agree (readSeparated sub delimiter depth) (readSeparated sub' delimiter depth') := by
  induction depth generalizing depth' with
  | zero => exact .exhausted
  | succ depth ih =>
    cases depth' with
    | zero => omega
    | succ depth' =>
      refine hsub.andThen fun node => .step (· = .punct delimiter)
        (fun lexeme => (ih (Nat.le_of_succ_le_succ hle)).map fun read =>
          (node :: read.1, lexeme.comments ++ read.2)) (.done ([node], [])) ?_ ?_ <;>
      · intro lexemes
        cases lexemes <;> simp

end Repetition

/-! ### Parts -/

section Rules

variable {sub sub' : Goal → List Lexeme → Outcome Node} (hsub : ∀ goal, Agree (sub goal) (sub' goal))
  {depth depth' : Nat} (hle : depth ≤ depth') (kind : Kind)

/-- What a rule expects instead of a token, or of the end. -/
def NameRule.refusesFirst? (rule : NameRule) : Option Token → Option Expectation
  | some (.name text) => rule.refuses? text
  | _ => some .name

/-- The text of a name. -/
def Token.nameText : Token → String
  | .name text => text
  | _ => ""

/-- A name is read or not by the first token. -/
theorem Part.readName_eq (draft : Draft) (slot : Slot) (rule : NameRule) (lexemes : List Lexeme) :
    Part.read.readName kind draft lexemes slot rule =
      match lexemes with
      | lexeme :: l =>
        if (rule.refusesFirst? (some lexeme.token)).isNone then
          .done ((draft.addComments .comments lexeme.comments).add slot (.ofName lexeme.token.nameText)) l
        else .failed ⟨.kind kind, rule.refusesFirst? (firstToken (lexeme :: l))⟩ (lexeme :: l)
      | [] => .failed ⟨.kind kind, rule.refusesFirst? (firstToken [])⟩ [] := by
  cases lexemes with
  | nil => rfl
  | cons lexeme l =>
    obtain ⟨token, span, comments⟩ := lexeme
    cases token with
    | name text =>
      cases h : rule.refuses? text <;>
        simp [Part.read.readName, NameRule.refusesFirst?, Token.nameText, firstToken, h]
    | _ => rfl

theorem Part.readName_agree (draft : Draft) (slot : Slot) (rule : NameRule) :
    Agree (fun lexemes => Part.read.readName kind draft lexemes slot rule)
      fun lexemes => Part.read.readName kind draft lexemes slot rule :=
  .step (fun token => (rule.refusesFirst? (some token)).isNone) (fun _ => .done _)
    (.failed fun first => ⟨.kind kind, rule.refusesFirst? first⟩)
    (Part.readName_eq kind draft slot rule) (Part.readName_eq kind draft slot rule)

include hsub hle

theorem Part.read_agree (part : Part) (draft : Draft) :
    Agree (fun lexemes => part.read sub depth kind draft lexemes)
      fun lexemes => part.read sub' depth' kind draft lexemes := by
  cases part with
  | gap g => exact .done draft
  | punct p => exact (takeToken_agree ..).map _
  | bracket p slot => exact (takeToken_agree ..).map _
  | keyword k => exact (takeToken_agree ..).map _
  | name slot rule => exact readName_agree kind draft slot rule
  | spacedName slot => exact readName_agree kind draft slot .any
  | literal l => exact (takeToken_agree ..).map _
  | child slot goal => exact (hsub goal).map _
  | opened p slot goal =>
    exact .ite (fun h => startsWith_congr h _) ((hsub goal).map _)
      (.failed fun _ => ⟨.kind kind, some (.punct p)⟩)
  | listed slot goal close allowEmpty =>
    refine .ite (fun h => ?_) (.failed fun _ => ⟨.kind kind, none⟩)
      ((readUntil_agree (hsub goal) (fun h => startsWith_congr h _) hle).map _)
    rw [startsWith_congr h]
  | repeated slot goal start =>
    refine (readUntil_agree (hsub goal) (fun h => ?_) hle).map _
    rw [startsWith_congr h]
  | separated slot goal delimiter =>
    have hseparated (draft : Draft) := (readSeparated_agree (hsub goal) delimiter hle).map
      fun read => (draft.addAll slot read.1).addComments .comments read.2
    refine .step (· = .punct delimiter)
      (fun lexeme => hseparated (draft.addComments .comments lexeme.comments)) (hseparated draft) ?_ ?_ <;>
    · intro lexemes
      cases lexemes with
      | nil => rfl
      | cons lexeme l =>
        simp only [Part.read, Draft.skipDelimiter, decide_eq_true_eq]
        split <;> rfl
  | juxtaposed slot => exact .done draft
  | demand p =>
    simp only [Part.read]
    split
    · exact .done draft
    · exact .failed fun _ => ⟨.kind kind, some (.punct p)⟩

/-! ### Items -/

theorem readParts_agree (parts : List Part) (draft : Draft) :
    Agree (readParts sub depth kind parts draft) (readParts sub' depth' kind parts draft) := by
  induction parts generalizing draft with
  | nil => exact .done draft
  | cons part parts ih => exact (part.read_agree hsub hle kind draft).andThen ih

/-- An item that is decided about by the first token. -/
theorem Item.read_agree {item : Item} (hitem : item.looksAhead = false) (draft : Draft) :
    Agree (fun lexemes => item.read sub depth kind draft lexemes)
      fun lexemes => item.read sub' depth' kind draft lexemes := by
  cases item with
  | part p => exact p.read_agree hsub hle kind draft
  | group guard presence parts =>
    refine .ite (fun h => ?_) (readParts_agree hsub hle kind parts draft) (.done draft)
    have hsecond : guard.second = none := by simpa [looksAhead] using hitem
    rw [Guard.holds, Guard.holds, hsecond, startsWith_congr h]
    rfl

theorem readItems_agree {items : List Item} (hitems : ∀ item ∈ items, item.looksAhead = false)
    (draft : Draft) :
    Agree (readItems sub depth kind items draft) (readItems sub' depth' kind items draft) := by
  induction items generalizing draft with
  | nil => exact .done draft
  | cons item items ih =>
    obtain ⟨hitem, hitems⟩ := List.forall_mem_cons.1 hitems
    exact (item.read_agree hsub hle kind hitem draft).andThen (ih hitems)

end Rules

/-! ### Decisions by two tokens -/

/-- A decision by two tokens, where the first one is taken in any case. -/
theorem Agree.ite_second {α : Type} {guard : Guard} {read read' other other' : List Lexeme → Outcome α}
    (h : Agree read read') (hother : Agree other other')
    (htakes : ∀ lexeme l, guard.first.accepts lexeme.token = true →
      (read (lexeme :: l)).Leaves l ∧ (other (lexeme :: l)).Leaves l) :
    Agree (fun lexemes => if guard.holds lexemes then read lexemes else other lexemes)
      fun lexemes => if guard.holds lexemes then read' lexemes else other' lexemes where
  leaves lexemes := by
    split
    · exact h.leaves lexemes
    · exact hother.leaves lexemes
  moves taken rest rest' hfirst := by
    cases taken with
    | cons lexeme taken =>
      have hholds : guard.holds (lexeme :: taken ++ rest') = guard.holds (lexeme :: taken ++ rest) := by
        simp only [Guard.holds, List.cons_append, List.tail_cons,
          startsWith_congr (firstToken_append hfirst taken)]
        rfl
      rw [hholds]
      split
      · exact h.moves (lexeme :: taken) hfirst
      · exact hother.moves (lexeme :: taken) hfirst
    | nil =>
      rw [List.nil_append, List.nil_append]
      by_cases haccepts : startsWith guard.first.accepts rest = true
      · -- More is taken than the lexemes that are left.
        cases rest with
        | nil => cases haccepts
        | cons lexeme l =>
          obtain ⟨hread, hread'⟩ := htakes lexeme l haccepts
          split
          · exact .of_length_lt hread (Nat.lt_succ_self _)
          · exact .of_length_lt hread' (Nat.lt_succ_self _)
      · have haccepts' := startsWith_congr hfirst guard.first.accepts
        rw [Bool.not_eq_true] at haccepts
        simp only [Guard.holds, haccepts', haccepts, Bool.false_and, Bool.false_eq_true, if_false]
        exact hother.moves [] hfirst

section Takes

variable {sub : Goal → List Lexeme → Outcome Node}
  (hsub : ∀ goal lexemes, (sub goal lexemes).Leaves lexemes) {depth : Nat} {kind : Kind}
include hsub

/-- What the first item takes, all items do. -/
theorem readItems_takes {item : Item} {items : List Item} {draft : Draft} {lexemes l : List Lexeme}
    (h : (item.read sub depth kind draft lexemes).Leaves l) :
    (readItems sub depth kind (item :: items) draft lexemes).Leaves l :=
  h.andThen fun d rest => readItems_leaves hsub depth kind items d rest

/-- What the first part takes, all parts do. -/
theorem readParts_takes {part : Part} {parts : List Part} {draft : Draft} {lexemes l : List Lexeme}
    (h : (part.read sub depth kind draft lexemes).Leaves l) :
    (readParts sub depth kind (part :: parts) draft lexemes).Leaves l :=
  h.andThen fun d rest => readParts_leaves hsub depth kind parts d rest

end Takes

theorem takeToken_takes (accepts : Token → Bool) {failure : Failure} {lexeme : Lexeme}
    (h : accepts lexeme.token = true) (l : List Lexeme) :
    (takeToken accepts failure (lexeme :: l)).Leaves l := by
  rw [takeToken, if_pos h]
  exact List.suffix_refl l

/-- A name that may be any is taken. -/
theorem Part.readName_takes (kind : Kind) (draft : Draft) (slot : Slot) {lexeme : Lexeme}
    (h : Terminal.name.accepts lexeme.token = true) (l : List Lexeme) :
    (Part.read.readName kind draft (lexeme :: l) slot .any).Leaves l := by
  obtain ⟨token, span, comments⟩ := lexeme
  cases token with
  | name text => exact List.suffix_refl l
  | _ => cases h

/-! ### Productions -/

section Productions

variable {sub sub' : Goal → List Lexeme → Outcome Node} (hsub : ∀ goal, Agree (sub goal) (sub' goal))
  {depth depth' : Nat} (hle : depth ≤ depth')
include hsub hle

/-- Whether there is an alias in front of a field is decided by two tokens, but the name that is the first
of them is taken either way. -/
private theorem readItems_agree_field (draft : Draft) :
    Agree (readItems sub depth .field (Production.of .field).items draft)
      (readItems sub' depth' .field (Production.of .field).items draft) := by
  have hleaves (goal : Goal) (lexemes : List Lexeme) := (hsub goal).leaves lexemes
  generalize hitems : (Production.of .field).items = items
  obtain ⟨parts, others, rfl, hothers⟩ : ∃ parts others,
      items = .group ⟨.name, some (.punct .colon)⟩ (.filled .aliasName) (.name .aliasName .any :: parts) ::
        .part (.name .name .any) :: others ∧ ∀ item ∈ others, item.looksAhead = false :=
    ⟨_, _, hitems.symm, by decide⟩
  have hlater (draft : Draft) :
      Agree (readItems sub depth .field (.part (.name .name .any) :: others) draft)
        (readItems sub' depth' .field (.part (.name .name .any) :: others) draft) :=
    readItems_agree hsub hle .field (List.forall_mem_cons.2 ⟨rfl, hothers⟩) draft
  have hgroup := (readParts_agree hsub hle .field (.name .aliasName .any :: parts) draft).andThen hlater
  have hread (sub : Goal → List Lexeme → Outcome Node) (depth : Nat) :
      readItems sub depth .field (.group ⟨.name, some (.punct .colon)⟩ (.filled .aliasName)
        (.name .aliasName .any :: parts) :: .part (.name .name .any) :: others) draft = fun lexemes =>
      if Guard.holds ⟨.name, some (.punct .colon)⟩ lexemes then
        (readParts sub depth .field (.name .aliasName .any :: parts) draft lexemes).andThen
          (readItems sub depth .field (.part (.name .name .any) :: others))
      else readItems sub depth .field (.part (.name .name .any) :: others) draft lexemes := by
    funext lexemes
    rw [readItems, Item.read]
    split <;> rfl
  rw [hread, hread]
  refine hgroup.ite_second (hlater draft) fun lexeme l haccepts => ⟨?_, ?_⟩
  · exact (readParts_takes hleaves (Part.readName_takes _ _ _ haccepts l)).andThen fun d rest =>
      readItems_leaves hleaves depth .field _ d rest
  · exact readItems_takes hleaves (Part.readName_takes _ _ _ haccepts l)

theorem Production.read_agree (p : Production) : Agree (p.read sub depth) (p.read sub' depth') := by
  refine Agree.map ?_ _
  have hcheck := check (fun p => p = .of .field || p.items.all fun item => !item.looksAhead)
    (by decide) p
  rw [Bool.or_eq_true, decide_eq_true_eq] at hcheck
  rcases hcheck with rfl | hitems
  · exact readItems_agree_field hsub hle _
  · exact readItems_agree hsub hle p.kind (by simpa using hitems) _

end Productions

/-! ### Goals -/

namespace Goal

/-- In front of other tokens the first token is enough to choose. -/
theorem choose_congr {goal : Goal} {first : Option Token} (h : ∀ token ∈ first, ¬goal.DecidesLate token)
    (second second' : Option Token) : goal.choose first second = goal.choose first second' := by
  cases goal with
  | selection =>
    cases first with
    | none => rfl
    | some token =>
      have hlate := h token rfl
      cases token with
      | punct p =>
        cases p with
        | ellipsis => exact absurd (.inl ⟨rfl, rfl⟩) hlate
        | _ => rfl
      | _ => rfl
  | definition =>
    cases first with
    | none => rfl
    | some token =>
      have hlate := h token rfl
      cases token with
      | punct p => cases p <;> rfl
      | name text =>
        have hextend : Keyword.ofName? text ≠ some .extend := fun hk =>
          hlate (.inr ⟨rfl, .inl (congrArg Token.name (Keyword.eq_text_of_ofName? hk))⟩)
        simp only [choose, Choice.definition]
        split <;> first | rfl | exact absurd ‹_› hextend
      | string value => exact absurd (.inr ⟨rfl, .inr rfl⟩) hlate
      | blockString value => exact absurd (.inr ⟨rfl, .inr rfl⟩) hlate
      | _ => rfl
  | _ => rfl

/-- Whether an item is one that a token is taken by where the next token chooses. -/
private def Heads (item : Item) (token : Token) : Prop :=
  item = .punct .ellipsis ∧ token = .punct .ellipsis ∨
    item = .keyword .extend ∧ token = .name Keyword.extend.text ∨
    item = .description ∧ Terminal.string.accepts token = true

/-- Where the second token chooses, the first one is taken or skipped. -/
private theorem choose_late {goal : Goal} {token : Token} (h : goal.DecidesLate token)
    (second : Option Token) :
    (∃ construct expected, goal.choose (some token) second = .refuse 1 construct expected) ∨
    ∃ p item items, goal.choose (some token) second = .take p ∧ p.items = item :: items ∧
      Heads item token := by
  have htype {role : Role} {head : Item} (hhead : Heads head token) {expected : Option Expectation}
      (hitems : ∀ k kind, Choice.typeSystemKind? role k = some kind →
        ∃ items, (Production.of kind).items = head :: items) :
      (∃ construct expected', (Choice.typeSystem? role second).getD (.refuse 1 .definition expected) =
          .refuse 1 construct expected') ∨
        ∃ p item items, (Choice.typeSystem? role second).getD (.refuse 1 .definition expected) = .take p ∧
          p.items = item :: items ∧ Heads item token := by
    cases hchoice : Choice.typeSystem? role second with
    | none => exact .inl ⟨_, _, rfl⟩
    | some choice =>
      obtain ⟨t, -, k, -, kind, hkind, rfl⟩ := by
        simpa [Choice.typeSystem?, Option.bind_eq_some_iff] using hchoice
      obtain ⟨items, hitems⟩ := hitems k kind hkind
      exact .inr ⟨_, head, items, rfl, hitems, hhead⟩
  rcases h with ⟨rfl, rfl⟩ | ⟨rfl, rfl | htoken⟩
  · have hhead : Heads (.punct .ellipsis) (.punct .ellipsis) := .inl ⟨rfl, rfl⟩
    simp only [choose, Choice.selection]
    split
    · next hname => cases hname
    · split
      · exact .inr ⟨_, _, _, rfl, rfl, hhead⟩
      · exact .inr ⟨_, _, _, rfl, rfl, hhead⟩
    · exact .inr ⟨_, _, _, rfl, rfl, hhead⟩
    · exact .inr ⟨_, _, _, rfl, rfl, hhead⟩
    · exact .inl ⟨_, _, rfl⟩
    · next _ hne _ _ _ => exact absurd rfl hne
  · simp only [choose, Choice.definition, Keyword.ofName?_text]
    refine htype (.inr (.inl ⟨rfl, rfl⟩)) fun k kind hkind => ?_
    revert hkind
    cases k <;> simp [Choice.typeSystemKind?] <;> rintro rfl <;> exact ⟨_, rfl⟩
  · have hitems (k : Keyword) (kind : Kind) (hkind : Choice.typeSystemKind? .definition k = some kind) :
        ∃ items, (Production.of kind).items = .description :: items := by
      revert hkind
      cases k <;> simp [Choice.typeSystemKind?] <;> rintro rfl <;> exact ⟨_, rfl⟩
    cases token with
    | string value => exact htype (.inr (.inr ⟨rfl, htoken⟩)) hitems
    | blockString value => exact htype (.inr (.inr ⟨rfl, htoken⟩)) hitems
    | _ => cases htoken

/-- A string is taken where one is asked for. -/
private theorem read_string_takes (depth : Nat) {lexeme : Lexeme}
    (h : Terminal.string.accepts lexeme.token = true) (l : List Lexeme) :
    ((Goal.kind .stringValue).read depth (lexeme :: l)).Leaves l := by
  have haccepts : (Literal.string.read? lexeme.token).isSome = true := by
    cases htoken : lexeme.token with
    | string value => rfl
    | blockString value => rfl
    | _ => rw [htoken] at h; cases h
  cases depth with
  | zero => trivial
  | succ depth =>
    have htakes : ((Item.literal .string).read (Goal.read depth) depth .stringValue ⟨.none, []⟩
        (lexeme :: l)).Leaves l :=
      (takeToken_takes (fun token => (Literal.string.read? token).isSome) haccepts l).map _
    exact (readItems_takes (read_leaves depth) htakes).map _

/-- Where the second token chooses, the first one is taken. -/
theorem read_takes {goal : Goal} {lexeme : Lexeme} (h : goal.DecidesLate lexeme.token) (depth : Nat)
    (l : List Lexeme) : (goal.read depth (lexeme :: l)).Leaves l := by
  cases depth with
  | zero => trivial
  | succ depth =>
    rw [Goal.read]
    rcases choose_late h (firstToken l) with ⟨construct, expected, hchoose⟩ |
      ⟨p, item, items, hchoose, hitems, hhead⟩
    · have hchoose : goal.choose (firstToken (lexeme :: l)) (firstToken (lexeme :: l).tail) = _ := hchoose
      rw [hchoose]
      exact List.suffix_refl l
    · have hchoose : goal.choose (firstToken (lexeme :: l)) (firstToken (lexeme :: l).tail) = _ := hchoose
      have hne : goal ≠ .type := by rcases h with ⟨rfl, -⟩ | ⟨rfl, -⟩ <;> decide
      rw [hchoose]
      simp only [if_neg hne]
      rw [Production.read, hitems]
      refine Outcome.Leaves.map (readItems_takes (read_leaves depth) ?_) _
      rcases hhead with ⟨rfl, htoken⟩ | ⟨rfl, htoken⟩ | ⟨rfl, htoken⟩
      · exact Outcome.Leaves.map (takeToken_takes (· = .punct .ellipsis) (by simp [htoken]) l) _
      · exact Outcome.Leaves.map (takeToken_takes (Terminal.keyword .extend).accepts (by simp [htoken, Terminal.accepts]) l) _
      · have hholds : Guard.holds (.next .string) (lexeme :: l) = true := by
          simpa [Guard.holds, startsWith, firstToken, Guard.next] using htoken
        simp only [Item.description, Item.optional, Item.read, hholds, if_true]
        exact readParts_takes (read_leaves depth) ((read_string_takes depth htoken l).map _)

/-- What is left when some lexemes are skipped doesn't depend on the others. -/
private theorem drop_append_eq {skip : Nat} {taken rest rest' : List Lexeme}
    (h : (taken ++ rest).drop skip = rest) (hfirst : firstToken rest' = firstToken rest) :
    (taken ++ rest').drop skip = rest' := by
  have hlength := congrArg List.length h
  rw [List.length_drop, List.length_append] at hlength
  rcases eq_nil_or_cons_of_firstToken hfirst with ⟨rfl, rfl⟩ | ⟨lexeme, lexeme', l, l', rfl, rfl, -⟩
  · exact h
  · obtain rfl : skip = taken.length := by simp only [List.length_cons] at hlength; omega
    rw [List.drop_left]

theorem wrapType_agree (node : Node) : Agree (wrapType node) (wrapType node) := by
  let wrapped (lexeme : Lexeme) : Node :=
    .mk .nonNullType .none (Node.ofComments .comments lexeme.comments ++ [(.type, node)])
  have hread (lexemes : List Lexeme) : wrapType node lexemes =
      match lexemes with
      | lexeme :: l =>
        if decide (lexeme.token = .punct .exclamation) then .done (wrapped lexeme) l
        else .done node (lexeme :: l)
      | [] => .done node [] := by
    cases lexemes with
    | nil => rfl
    | cons lexeme l =>
      obtain ⟨token, span, comments⟩ := lexeme
      cases token with
      | punct p => cases p <;> rfl
      | _ => rfl
  exact .step (· = .punct .exclamation) (fun lexeme => .done (wrapped lexeme)) (.done node) hread hread

/-- A reader does the same, with more depth also, where the lexemes that it leaves have the same first
token. -/
theorem read_agree {depth depth' : Nat} (hle : depth ≤ depth') (goal : Goal) :
    Agree (goal.read depth) (goal.read depth') := by
  induction depth generalizing depth' goal with
  | zero => exact .exhausted
  | succ depth ih =>
    obtain ⟨depth', rfl⟩ : ∃ n, depth' = n + 1 := ⟨depth' - 1, by omega⟩
    have hsub (goal : Goal) : Agree (goal.read depth) (goal.read depth') := ih (by omega) goal
    refine ⟨read_leaves (depth + 1) goal, fun taken {rest rest'} hfirst => ?_⟩
    by_cases hlate : taken = [] ∧ ∃ token ∈ firstToken rest, goal.DecidesLate token
    · obtain ⟨rfl, token, htoken, hlate⟩ := hlate
      cases rest with
      | nil => cases htoken
      | cons lexeme l =>
        obtain rfl := Option.some.inj htoken
        exact .of_length_lt (read_takes hlate (depth + 1) l) (Nat.lt_succ_self _)
    · have hchoose : goal.choose (firstToken (taken ++ rest')) (firstToken (taken ++ rest').tail) =
          goal.choose (firstToken (taken ++ rest)) (firstToken (taken ++ rest).tail) := by
        rw [firstToken_append hfirst]
        cases taken with
        | nil => exact choose_congr (fun token htoken hl => hlate ⟨rfl, token, htoken, hl⟩) _ _
        | cons lexeme taken => exact congrArg _ (firstToken_append hfirst taken)
      rw [Goal.read, Goal.read, hchoose]
      split
      · exact ⟨fun h => (by cases h), fun h => by
          injection h with hf hr
          rw [hf, drop_append_eq hr hfirst]⟩
      · next p _ =>
        have hread := p.read_agree hsub (show depth ≤ depth' by omega)
        simp only
        split
        · exact (hread.andThen wrapType_agree).moves taken hfirst
        · exact hread.moves taken hfirst

end Goal

end GraphQLTree
