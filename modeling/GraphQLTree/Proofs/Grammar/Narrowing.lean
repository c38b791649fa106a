import GraphQLTree.Proofs.Grammar.Families
import GraphQLTree.Proofs.Grammar.Rest

/-!
# Reading in the two families

A reader of the constant family **narrows** the one of the general family: the two go through the same
lexemes in step and give the same node, but for its family, until there is a dollar sign. That is where
the constant reader stops, and the general one goes on (`Goal.read_narrows`).
-/

namespace GraphQLTree

/-- Whether there is no dollar sign among some lexemes. -/
def Constant (lexemes : List Lexeme) : Prop :=
  ∀ lexeme ∈ lexemes, lexeme.token ≠ .punct .dollar

theorem Constant.append {a b : List Lexeme} (ha : Constant a) (hb : Constant b) :
    Constant (a ++ b) :=
  List.forall_mem_append.2 ⟨ha, hb⟩

theorem constant_singleton {lexeme : Lexeme} (h : lexeme.token ≠ .punct .dollar) :
    Constant [lexeme] :=
  List.forall_mem_singleton.2 h

/-- Lexemes have one first dollar sign at most. -/
theorem Constant.first_unique {a b : List Lexeme} (ha : Constant a) (hb : Constant b)
    {dollar dollar' : Lexeme} (hdollar : dollar.token = .punct .dollar)
    (hdollar' : dollar'.token = .punct .dollar) {after after' : List Lexeme}
    (h : a ++ dollar :: after = b ++ dollar' :: after') :
    a = b ∧ dollar = dollar' ∧ after = after' := by
  induction a generalizing b with
  | nil =>
    cases b with
    | nil => simpa using h
    | cons first b =>
      obtain ⟨rfl, -⟩ := List.cons.inj h
      exact absurd hdollar (hb _ List.mem_cons_self)
  | cons first a ih =>
    obtain ⟨hfirst, ha⟩ := List.forall_mem_cons.1 ha
    cases b with
    | nil =>
      obtain ⟨rfl, -⟩ := List.cons.inj h
      exact absurd hdollar' hfirst
    | cons first' b =>
      obtain ⟨rfl, htail⟩ := List.cons.inj h
      obtain ⟨rfl, hrest⟩ := ih ha (List.forall_mem_cons.1 hb).2 htail
      exact ⟨rfl, hrest⟩

/-- How a reader that meets a dollar sign fails where constants are asked for. -/
def Failure.constant : Failure :=
  ⟨.value, some .constantValue⟩

/-- How the outcome of a reader of the constant family, which comes first, and the one of a reader of
the general family belong together when both have read the same lexemes. The `view` says what the
result of the former is in the general family. -/
inductive Narrows {α : Type} (view : α → α) : List Lexeme → Outcome α → Outcome α → Prop
  /-- Both read the same, which has no dollar sign. -/
  | done {taken : List Lexeme} (h : Constant taken) (result : α) (rest : List Lexeme) :
    Narrows view (taken ++ rest) (.done result rest) (.done (view result) rest)
  /-- Both fail in the same place. -/
  | failed {lexemes : List Lexeme} (failure failure' : Failure) (rest : List Lexeme) :
    Narrows view lexemes (.failed failure rest) (.failed failure' rest)
  /-- Both run out of depth. -/
  | exhausted {lexemes : List Lexeme} : Narrows view lexemes .exhausted .exhausted
  /-- There is a dollar sign, which only the general reader gets past. -/
  | stopped {before after : List Lexeme} {dollar : Lexeme} {general : Outcome α}
    (hbefore : Constant before) (hdollar : dollar.token = .punct .dollar)
    (hgeneral : general.Leaves after) :
    Narrows view (before ++ dollar :: after) (.failed .constant (dollar :: after)) general

namespace Narrows

variable {α β : Type} {view : α → α} {view' : β → β} {lexemes : List Lexeme}
  {constant general : Outcome α}

/-- Nothing is read in either family. -/
theorem pure (result : α) (lexemes : List Lexeme) :
    Narrows view lexemes (.done result lexemes) (.done (view result) lexemes) :=
  done (List.forall_mem_nil _) result lexemes

/-- More lexemes in front that have no dollar sign. -/
theorem behind {taken : List Lexeme} (htaken : Constant taken)
    (h : Narrows view lexemes constant general) : Narrows view (taken ++ lexemes) constant general := by
  cases h with
  | done h result rest =>
    rw [← List.append_assoc]
    exact done (htaken.append h) result rest
  | failed failure failure' rest => exact failed failure failure' rest
  | exhausted => exact exhausted
  | stopped hbefore hdollar hgeneral =>
    rw [← List.append_assoc]
    exact stopped (htaken.append hbefore) hdollar hgeneral

/-- Readers that go on in step when they were in step. -/
theorem andThen (h : Narrows view lexemes constant general)
    {next next' : α → List Lexeme → Outcome β}
    (hnext : ∀ result rest, Narrows view' rest (next result rest) (next' (view result) rest))
    (hleaves : ∀ result rest, (next' result rest).Leaves rest) :
    Narrows view' lexemes (constant.andThen next) (general.andThen next') := by
  cases h with
  | done h result rest => exact (hnext result rest).behind h
  | failed failure failure' rest => exact failed failure failure' rest
  | exhausted => exact exhausted
  | stopped hbefore hdollar hgeneral =>
    exact stopped hbefore hdollar (hgeneral.andThen hleaves)

/-- Readers whose results are changed in the same way. -/
theorem map (h : Narrows view lexemes constant general) {f f' : α → β}
    (hf : ∀ result, f' (view result) = view' (f result)) :
    Narrows view' lexemes (constant.map f) (general.map f') := by
  refine h.andThen (fun result rest => ?_) fun result rest => List.suffix_refl rest
  rw [hf]
  exact pure _ rest

end Narrows

/-! ### Drafts -/

/-- A draft of the general family. -/
def Draft.widen (draft : Draft) : Draft :=
  ⟨draft.atom, Node.widenChildren draft.entries⟩

namespace Draft

theorem widen_addComments (draft : Draft) (slot : Slot) (comments : List Comment) :
    (draft.addComments slot comments).widen = draft.widen.addComments slot comments := by
  simp [widen, addComments, Node.widenChildren_append, Node.widenChildren_ofComments]

theorem widen_addAll (draft : Draft) (slot : Slot) (nodes : List Node) :
    (draft.addAll slot nodes).widen = draft.widen.addAll slot (nodes.map Node.widen) := by
  simp [widen, addAll, Node.widenChildren_eq]

theorem widen_add (draft : Draft) (slot : Slot) (node : Node) :
    (draft.add slot node).widen = draft.widen.add slot node.widen :=
  draft.widen_addAll slot [node]

theorem widen_finish (draft : Draft) (kind : Kind) :
    (draft.finish kind).widen = draft.widen.finish kind.widen := by
  simp [finish, widen, Node.widen_mk, Node.widenChildren_arrange]

end Draft

/-! ### Parts -/

/-- No literal is a dollar sign. -/
theorem Literal.read?_dollar (l : Literal) : l.read? (.punct .dollar) = none := by
  cases l <;> rfl

/-- A token other than a dollar sign is taken in both families or in none. -/
theorem takeToken_narrows {accepts : Token → Bool} (h : accepts (.punct .dollar) = false)
    (failure failure' : Failure) (lexemes : List Lexeme) :
    Narrows id lexemes (takeToken accepts failure lexemes) (takeToken accepts failure' lexemes) := by
  cases lexemes with
  | nil => exact .failed failure failure' []
  | cons lexeme rest =>
    rw [takeToken, takeToken]
    split
    · next haccepts =>
      have hlexeme : lexeme.token ≠ .punct .dollar := by
        intro hdollar
        rw [hdollar, h] at haccepts
        cases haccepts
      exact .done (constant_singleton hlexeme) lexeme rest
    · exact .failed failure failure' _

section Rules

variable {sub : Goal → List Lexeme → Outcome Node}
  (hsub : ∀ goal, goal.isOf .constant = true → ∀ lexemes,
    Narrows Node.widen lexemes (sub goal lexemes) (sub goal.widen lexemes))
  (hleaves : ∀ goal lexemes, (sub goal lexemes).Leaves lexemes)

theorem Part.readName_narrows (kind : Kind) (draft : Draft) (lexemes : List Lexeme) (slot : Slot)
    (rule : NameRule) : Narrows Draft.widen lexemes
      (Part.read.readName kind draft lexemes slot rule)
      (Part.read.readName kind.widen draft.widen lexemes slot rule) := by
  unfold Part.read.readName
  split
  · next text span comments rest =>
    split
    · exact .failed _ _ _
    · rw [← Draft.widen_addComments, ← Node.widen_ofName, ← Draft.widen_add, Node.widen_ofName]
      exact .done (constant_singleton Token.noConfusion) _ rest
  · exact .failed _ _ _

include hsub hleaves

theorem readUntil_narrows {goal : Goal} (hgoal : goal.isOf .constant = true)
    (stop : List Lexeme → Bool) (depth : Nat) (lexemes : List Lexeme) :
    Narrows (List.map Node.widen) lexemes (readUntil (sub goal) stop depth lexemes)
      (readUntil (sub goal.widen) stop depth lexemes) := by
  induction depth generalizing lexemes with
  | zero =>
    rw [readUntil, readUntil]
    split
    · exact .pure [] lexemes
    · exact .exhausted
  | succ depth ih =>
    rw [readUntil, readUntil]
    split
    · exact .pure [] lexemes
    · refine (hsub goal hgoal lexemes).andThen (fun node rest => (ih rest).map fun nodes => rfl) ?_
      exact fun node rest => (readUntil_leaves (hleaves goal.widen) stop depth rest).map _

/-- A part is read in step. -/
theorem Part.read_narrows {part : Part} (hpart : part.isOf .constant = true) (depth : Nat)
    (kind : Kind) (draft : Draft) (lexemes : List Lexeme) :
    Narrows Draft.widen lexemes (part.read sub depth kind draft lexemes)
      (part.widen.read sub depth kind.widen draft.widen lexemes) := by
  have hcomments (slot : Slot) (lexeme : Lexeme) :
      draft.widen.addComments slot (id lexeme).comments =
        (draft.addComments slot lexeme.comments).widen :=
    (draft.widen_addComments slot lexeme.comments).symm
  cases part with
  | gap g => exact .pure draft lexemes
  | punct p =>
    have hp : p ≠ .dollar := of_decide_eq_true hpart
    exact (takeToken_narrows (by simpa using hp.symm) ..).map (hcomments .comments)
  | bracket p slot =>
    have hp : p ≠ .dollar := of_decide_eq_true hpart
    exact (takeToken_narrows (by simpa using hp.symm) ..).map (hcomments slot)
  | keyword k => exact (takeToken_narrows rfl ..).map (hcomments .comments)
  | name slot rule => exact readName_narrows kind draft lexemes slot rule
  | literal l =>
    refine (takeToken_narrows (by simp [Literal.read?_dollar]) ..).map fun lexeme => ?_
    simp only [hcomments]
    rfl
  | child slot goal =>
    exact (hsub goal hpart lexemes).map fun node => (draft.widen_add slot node).symm
  | listed slot goal close allowEmpty =>
    rw [widen, Part.read, Part.read]
    split
    · exact .failed _ _ lexemes
    · exact (readUntil_narrows hsub hleaves hpart ..).map fun nodes =>
        (draft.widen_addAll slot nodes).symm
  | _ => cases hpart

theorem readParts_narrows {parts : List Part} (hparts : ∀ part ∈ parts, part.isOf .constant = true)
    (depth : Nat) (kind : Kind) (draft : Draft) (lexemes : List Lexeme) :
    Narrows Draft.widen lexemes (readParts sub depth kind parts draft lexemes)
      (readParts sub depth kind.widen (parts.map Part.widen) draft.widen lexemes) := by
  induction parts generalizing draft lexemes with
  | nil => exact .pure draft lexemes
  | cons part parts ih =>
    obtain ⟨hpart, hparts⟩ := List.forall_mem_cons.1 hparts
    exact (Part.read_narrows hsub hleaves hpart depth kind draft lexemes).andThen (ih hparts)
      (readParts_leaves hleaves depth kind.widen _)

/-- Items are read in step: a group is there in both families or in none. -/
theorem readItems_narrows {items : List Item} (hitems : ∀ item ∈ items, item.isOf .constant = true)
    (depth : Nat) (kind : Kind) (draft : Draft) (lexemes : List Lexeme) :
    Narrows Draft.widen lexemes (readItems sub depth kind items draft lexemes)
      (readItems sub depth kind.widen (items.map Item.widen) draft.widen lexemes) := by
  induction items generalizing draft lexemes with
  | nil => exact .pure draft lexemes
  | cons item items ih =>
    obtain ⟨hitem, hitems⟩ := List.forall_mem_cons.1 hitems
    have hread : Narrows Draft.widen lexemes (item.read sub depth kind draft lexemes)
        (item.widen.read sub depth kind.widen draft.widen lexemes) := by
      cases item with
      | part p => exact Part.read_narrows hsub hleaves hitem depth kind draft lexemes
      | group guard presence parts =>
        rw [Item.widen, Item.read, Item.read]
        split
        · exact readParts_narrows hsub hleaves (List.all_eq_true.1 hitem) depth kind draft lexemes
        · exact .pure draft lexemes
    exact hread.andThen (ih hitems) (readItems_leaves hleaves depth kind.widen _)

end Rules

/-! ### Nodes -/

/-- A production of the general family is read like the one of the constant family but for goals. -/
theorem Production.items_of_isOf {p : Production} (h : p.isOf .constant = true) :
    ∃ kind, p = .of kind ∧ (∀ item ∈ p.items, item.isOf .constant = true) ∧
      (of kind.widen).items = p.items.map Item.widen ∧
      (of kind.widen).rule.start = p.rule.start := by
  cases p with
  | of kind =>
    have hcheck := check (fun p => !p.isOf .constant || (p.items.all (Item.isOf .constant) &&
      (of p.kind.widen).items = p.items.map Item.widen &&
        (of p.kind.widen).rule.start = p.rule.start)) (by decide) (of kind)
    simp only [h, Bool.not_true, Bool.false_or, Bool.and_eq_true, List.all_eq_true,
      decide_eq_true_eq] at hcheck
    exact ⟨kind, rfl, hcheck.1.1, hcheck.1.2, hcheck.2⟩
  | _ => cases h

/-- A node is read in step. -/
theorem Production.read_narrows {sub : Goal → List Lexeme → Outcome Node}
    (hsub : ∀ goal, goal.isOf .constant = true → ∀ lexemes,
      Narrows Node.widen lexemes (sub goal lexemes) (sub goal.widen lexemes))
    (hleaves : ∀ goal lexemes, (sub goal lexemes).Leaves lexemes) {kind : Kind}
    (hkind : (of kind).isOf .constant = true) (depth : Nat) (lexemes : List Lexeme) :
    Narrows Node.widen lexemes ((of kind).read sub depth lexemes)
      ((of kind.widen).read sub depth lexemes) := by
  obtain ⟨_, ⟨⟩, hitems, hwiden, hstart⟩ := items_of_isOf hkind
  rw [Production.read, Production.read, hwiden, hstart]
  exact (readItems_narrows hsub hleaves hitems depth kind ⟨(of kind).rule.start, []⟩ lexemes).map
    fun draft => (draft.widen_finish kind).symm

/-- A variable is read as a name behind its dollar sign. -/
theorem Production.read_variableUse (sub : Goal → List Lexeme → Outcome Node) (depth : Nat)
    {dollar : Lexeme} (hdollar : dollar.token = .punct .dollar) (after : List Lexeme) :
    (of .variableUse).read sub depth (dollar :: after) =
      (Part.read.readName .variableUse (Draft.addComments ⟨.none, []⟩ .comments dollar.comments)
        after .name .any).map fun draft => draft.finish .variableUse := by
  have htake (failure : Failure) : takeToken (· = .punct .dollar) failure (dollar :: after) =
      .done dollar after := by
    simp [takeToken, hdollar]
  have hitems : (of .variableUse).items = [.punct .dollar, .name .any] := rfl
  have hlast (outcome : Outcome Draft) : outcome.andThen (readItems sub depth .variableUse []) =
      outcome := by
    cases outcome <;> rfl
  rw [Production.read, hitems, readItems, Item.punct, Item.read, Part.read, htake]
  exact congrArg (Outcome.map _) (hlast _)

/-- Without a dollar sign, the same production is chosen for a value in both families. -/
theorem Choice.value_widen {first : Option Token} (h : first ≠ some (.punct .dollar)) :
    (∃ kind, (Production.of kind).isOf .constant = true ∧
      (Production.of kind.widen).isOf .general = true ∧
      Choice.value .constant first = .take (.of kind) ∧
      Choice.value .general first = .take (.of kind.widen)) ∨
    ∃ construct expected, Choice.value .constant first = .refuse 0 construct expected ∧
      Choice.value .general first = .refuse 0 construct expected := by
  have hrefused (hconstant : Choice.value .constant first = .refuse 0 .value none)
      (hgeneral : Choice.value .general first = .refuse 0 .value none) :
      ∃ construct expected, Choice.value .constant first = .refuse 0 construct expected ∧
        Choice.value .general first = .refuse 0 construct expected :=
    ⟨.value, none, hconstant, hgeneral⟩
  -- Only the first token is looked at, and no token but the dollar sign tells the families apart.
  rcases first with _ | token
  · exact .inr (hrefused rfl rfl)
  · cases token with
    | punct p =>
      cases p with
      | dollar => exact absurd rfl h
      | bracketOpen => exact .inl ⟨.listValue .constant, by decide, by decide, rfl, rfl⟩
      | braceOpen => exact .inl ⟨.objectValue .constant, by decide, by decide, rfl, rfl⟩
      | _ => exact .inr (hrefused rfl rfl)
    | int text => exact .inl ⟨.intValue, by decide, by decide, rfl, rfl⟩
    | float text => exact .inl ⟨.floatValue, by decide, by decide, rfl, rfl⟩
    | string value => exact .inl ⟨.stringValue, by decide, by decide, rfl, rfl⟩
    | blockString value => exact .inl ⟨.stringValue, by decide, by decide, rfl, rfl⟩
    | name text =>
      refine .inl ?_
      simp only [Choice.value]
      split
      · exact ⟨.booleanValue, by decide, by decide, rfl, rfl⟩
      · exact ⟨.booleanValue, by decide, by decide, rfl, rfl⟩
      · exact ⟨.nullValue, by decide, by decide, rfl, rfl⟩
      · exact ⟨.enumValue, by decide, by decide, rfl, rfl⟩
    | _ => exact .inr (hrefused rfl rfl)

/-- A dollar sign starts a variable for the general reader. -/
theorem Goal.read_value_dollar (depth : Nat) {dollar : Lexeme}
    (hdollar : dollar.token = .punct .dollar) (after : List Lexeme) :
    (value .general).read (depth + 1) (dollar :: after) =
      (Production.of .variableUse).read (Goal.read depth) depth (dollar :: after) := by
  simp [Goal.read, choose, firstToken, hdollar, Choice.value, Choice.kind]

/-- A reader of a goal of the constant family narrows the one of the general family, whatever depth
both are given. -/
theorem Goal.read_narrows (depth : Nat) {goal : Goal} (hgoal : goal.isOf .constant = true)
    (lexemes : List Lexeme) :
    Narrows Node.widen lexemes (goal.read depth lexemes) (goal.widen.read depth lexemes) := by
  induction depth generalizing goal lexemes with
  | zero => exact .exhausted
  | succ depth ih =>
    -- The same production is read in both families, and its children in step by induction on the
    -- depth.
    have hread {kind : Kind} (hkind : (Production.of kind).isOf .constant = true) :
        Narrows Node.widen lexemes ((Production.of kind).read (Goal.read depth) depth lexemes)
          ((Production.of kind.widen).read (Goal.read depth) depth lexemes) :=
      Production.read_narrows (fun goal h => @ih goal h) (Goal.read_leaves depth) hkind depth lexemes
    have hproduction {kind : Kind} (h : (Goal.kind kind).isOf .constant = true) :
        Narrows Node.widen lexemes ((Goal.kind kind).read (depth + 1) lexemes)
          ((Goal.kind kind).widen.read (depth + 1) lexemes) :=
      hread (Bool.or_eq_true_iff.2 (.inr h))
    cases goal with
    | production p =>
      cases p with
      | of kind => exact hproduction hgoal
      | _ => cases hgoal
    | value family =>
      obtain rfl : family = .constant := by cases family <;> first | rfl | cases hgoal
      by_cases hdollar : firstToken lexemes = some (.punct .dollar)
      · -- The constant reader refuses the dollar sign that starts a variable for the general one.
        cases lexemes with
        | nil => cases hdollar
        | cons dollar after =>
          obtain hdollar : dollar.token = .punct .dollar := Option.some.inj hdollar
          have hconstant : (value .constant).read (depth + 1) (dollar :: after) =
              .failed .constant (dollar :: after) := by
            simp [Goal.read, choose, firstToken, hdollar, Choice.value, Failure.constant]
          rw [widen, hconstant, Goal.read_value_dollar depth hdollar,
            Production.read_variableUse _ depth hdollar]
          exact .stopped (List.forall_mem_nil _) hdollar ((Part.readName_leaves ..).map _)
      · rw [widen, Goal.read, Goal.read, choose, choose]
        rcases Choice.value_widen hdollar with ⟨kind, hkind, -, hconstant, hgeneral⟩ |
          ⟨construct, expected, hconstant, hgeneral⟩
        · rw [hconstant, hgeneral]
          exact hread hkind
        · rw [hconstant, hgeneral]
          exact .failed _ _ _
    | _ => cases hgoal

end GraphQLTree
