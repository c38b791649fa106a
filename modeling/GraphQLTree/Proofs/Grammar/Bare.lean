import GraphQLTree.Grammar.Parser
import GraphQLTree.Proofs.Grammar.Soundness
import GraphQLTree.Proofs.Tree.Bare

/-!
# Reading without comments

A **bare** lexeme is a token alone. Reading bare lexemes does what reading the lexemes themselves does,
except that the nodes have no comments (`Goal.read_bare`), so every decision of a reader depends on the
tokens only.
-/

namespace GraphQLTree

/-- A lexeme without its comments and its place. -/
def Lexeme.bare (lexeme : Lexeme) : Lexeme :=
  ⟨lexeme.token, ⟨0, 0⟩, []⟩

/-- The lexemes of some tokens without comments. -/
def Lexeme.ofTokens (tokens : List Token) : List Lexeme :=
  tokens.map fun token => ⟨token, ⟨0, 0⟩, []⟩

theorem Lexeme.map_bare (lexemes : List Lexeme) :
    lexemes.map bare = ofTokens (lexemes.map token) := by
  rw [ofTokens, List.map_map]
  rfl

/-- The draft of a bare node. -/
def Draft.bare (draft : Draft) : Draft :=
  ⟨draft.atom.bare, Node.bareChildren draft.entries⟩

/-- What comes of reading bare lexemes, with what becomes of the result. -/
def Outcome.bare {α β : Type} (f : α → β) : Outcome α → Outcome β
  | done result rest => done (f result) (rest.map Lexeme.bare)
  | failed failure rest => failed failure (rest.map Lexeme.bare)
  | exhausted => exhausted

namespace Outcome

variable {α β γ δ : Type}

/-- One step after the other is the same with bare lexemes if each step is. -/
theorem bare_andThen {f : α → β} {g : γ → δ} {outcome : Outcome α}
    {next : α → List Lexeme → Outcome γ} {next' : β → List Lexeme → Outcome δ}
    (h : ∀ result rest, next' (f result) (rest.map Lexeme.bare) = (next result rest).bare g) :
    (outcome.bare f).andThen next' = (outcome.andThen next).bare g := by
  cases outcome with
  | done result rest => exact h result rest
  | failed failure rest => rfl
  | exhausted => rfl

/-- A result may be changed before or after it is made bare. -/
theorem bare_map {f : α → β} {g : γ → δ} {outcome : Outcome α} {m : α → γ} {m' : β → δ}
    (h : ∀ result, m' (f result) = g (m result)) :
    (outcome.bare f).map m' = (outcome.map m).bare g :=
  bare_andThen fun result rest => by rw [h]; rfl

end Outcome

/-! ### Drafts -/

namespace Draft

theorem bare_addComments (draft : Draft) {slot : Slot} (h : slot.holdsComments = true)
    (comments : List Comment) : (draft.addComments slot comments).bare = draft.bare := by
  simp [bare, addComments, Node.bareChildren_append, Node.bareChildren_ofComments h]

theorem addComments_nil (draft : Draft) (slot : Slot) : draft.addComments slot [] = draft := by
  simp [addComments, Node.ofComments]

/-- The comments of a bare lexeme are none. -/
theorem bare_addComments_bare (draft : Draft) {slot : Slot} (h : slot.holdsComments = true)
    (lexeme : Lexeme) : draft.bare.addComments slot lexeme.bare.comments =
      (draft.addComments slot lexeme.comments).bare := by
  rw [bare_addComments _ h]
  exact addComments_nil ..

theorem bare_add (draft : Draft) {slot : Slot} (h : slot.holdsComments = false) (node : Node) :
    (draft.add slot node).bare = draft.bare.add slot node.bare := by
  simp [bare, add, Node.bareChildren_append, Node.bareChildren_cons, h]

theorem bare_addAll (draft : Draft) {slot : Slot} (h : slot.holdsComments = false)
    (nodes : List Node) :
    (draft.addAll slot nodes).bare = draft.bare.addAll slot (nodes.map Node.bare) := by
  simp [bare, addAll, Node.bareChildren_append, Node.bareChildren_map h]

/-- Comments are no parts that a demand could be met by. -/
theorem hasParts_bare (draft : Draft) : draft.bare.hasParts = draft.hasParts := by
  simp only [hasParts, bare, Node.bareChildren_eq, List.any_map, List.any_filter]
  congr 1
  funext entry
  simp only [Function.comp_apply]
  cases entry.1.holdsComments <;> simp

theorem bare_finish (draft : Draft) (kind : Kind) :
    (draft.finish kind).bare = draft.bare.finish kind := by
  simp [finish, bare, Node.bareChildren_arrange]

end Draft

/-! ### What stands next -/

theorem firstToken_bare (lexemes : List Lexeme) :
    firstToken (lexemes.map Lexeme.bare) = firstToken lexemes := by
  cases lexemes <;> rfl

theorem startsWith_bare (accepts : Token → Bool) (lexemes : List Lexeme) :
    startsWith accepts (lexemes.map Lexeme.bare) = startsWith accepts lexemes := by
  rw [startsWith, startsWith, firstToken_bare]

theorem Guard.holds_bare (guard : Guard) (lexemes : List Lexeme) :
    guard.holds (lexemes.map Lexeme.bare) = guard.holds lexemes := by
  simp only [holds, startsWith_bare, ← List.map_tail]

/-! ### Repetition -/

/-- Whether a reader does with bare lexemes what it does with lexemes. -/
def ReadsBare (read : List Lexeme → Outcome Node) : Prop :=
  ∀ lexemes, read (lexemes.map Lexeme.bare) = (read lexemes).bare Node.bare

section Repetition

variable {sub : List Lexeme → Outcome Node} (hsub : ReadsBare sub)
include hsub

theorem readUntil_bare {stop : List Lexeme → Bool}
    (hstop : ∀ lexemes, stop (lexemes.map Lexeme.bare) = stop lexemes) (depth : Nat)
    (lexemes : List Lexeme) :
    readUntil sub stop depth (lexemes.map Lexeme.bare) =
      (readUntil sub stop depth lexemes).bare (List.map Node.bare) := by
  induction depth generalizing lexemes with
  | zero =>
    unfold readUntil
    rw [hstop]
    cases stop lexemes <;> rfl
  | succ depth ih =>
    rw [readUntil, readUntil, hstop]
    cases stop lexemes with
    | true => rfl
    | false =>
      simp only [Bool.false_eq_true, if_false]
      rw [hsub]
      refine Outcome.bare_andThen fun node rest => ?_
      rw [ih]
      exact Outcome.bare_map fun nodes => rfl

theorem readSeparated_bare (delimiter : Punctuator) (depth : Nat) (lexemes : List Lexeme) :
    readSeparated sub delimiter depth (lexemes.map Lexeme.bare) =
      (readSeparated sub delimiter depth lexemes).bare
        fun result => (result.1.map Node.bare, []) := by
  induction depth generalizing lexemes with
  | zero => rfl
  | succ depth ih =>
    rw [readSeparated, readSeparated, hsub]
    refine Outcome.bare_andThen fun node rest => ?_
    cases rest with
    | nil => rfl
    | cons lexeme rest =>
      simp only [List.map_cons]
      by_cases h : lexeme.token = .punct delimiter
      · have hbare : lexeme.bare.token = .punct delimiter := h
        rw [if_pos h, if_pos hbare, ih]
        exact Outcome.bare_map fun result => rfl
      · have hbare : ¬ lexeme.bare.token = .punct delimiter := h
        rw [if_neg h, if_neg hbare]
        rfl

end Repetition

/-! ### Parts -/

theorem takeToken_bare (accepts : Token → Bool) (failure : Failure) (lexemes : List Lexeme) :
    takeToken accepts failure (lexemes.map Lexeme.bare) =
      (takeToken accepts failure lexemes).bare Lexeme.bare := by
  cases lexemes with
  | nil => rfl
  | cons lexeme rest =>
    simp only [takeToken, List.map_cons]
    by_cases h : accepts lexeme.token = true
    · have hbare : accepts lexeme.bare.token = true := h
      rw [if_pos h, if_pos hbare]
      rfl
    · have hbare : ¬ accepts lexeme.bare.token = true := h
      rw [if_neg h, if_neg hbare]
      rfl

/-- A bare token gives a bare node what the token gives the node. -/
theorem Literal.bare_of_read {l : Literal} {token : Token} {atom : Atom}
    (h : l.read? token = some atom) : atom.bare = atom := by
  cases l <;> cases token <;> simp only [read?, reduceCtorEq, Option.some.injEq,
    Option.map_eq_some_iff, Option.ite_none_left_eq_some, Option.ite_none_right_eq_some] at h
  case boolean.name => split at h <;> simp_all [Atom.bare] <;> subst h <;> rfl
  all_goals grind [Atom.bare]

/-- Skipping a delimiter in front of bare lexemes. -/
private theorem skipDelimiter_bare (draft : Draft) (delimiter : Punctuator) (lexemes : List Lexeme) :
    draft.bare.skipDelimiter delimiter (lexemes.map Lexeme.bare) =
      ((draft.skipDelimiter delimiter lexemes).1.bare,
        (draft.skipDelimiter delimiter lexemes).2.map Lexeme.bare) := by
  cases lexemes with
  | nil => rfl
  | cons lexeme rest =>
    simp only [Draft.skipDelimiter, List.map_cons]
    by_cases h : lexeme.token = .punct delimiter
    · have hbare : lexeme.bare.token = .punct delimiter := h
      rw [if_pos h, if_pos hbare, Draft.bare_addComments_bare draft rfl]
    · have hbare : ¬ lexeme.bare.token = .punct delimiter := h
      rw [if_neg h, if_neg hbare]
      rfl

/-- Taking a token of bare lexemes. -/
private theorem map_takeToken_bare (accepts : Token → Bool) (failure : Failure)
    (lexemes : List Lexeme) {f f' : Lexeme → Draft}
    (h : ∀ lexeme, f' lexeme.bare = (f lexeme).bare) :
    (takeToken accepts failure (lexemes.map Lexeme.bare)).map f' =
      ((takeToken accepts failure lexemes).map f).bare Draft.bare := by
  rw [takeToken_bare]
  exact Outcome.bare_map h

/-- Taking the token of a literal of bare lexemes. -/
private theorem read_literal_bare (l : Literal) (draft : Draft) (lexeme : Lexeme) :
    ({ draft.bare.addComments .comments lexeme.bare.comments with
      atom := (l.read? lexeme.bare.token).getD draft.bare.atom } : Draft) =
      Draft.bare { draft.addComments .comments lexeme.comments with
        atom := (l.read? lexeme.token).getD draft.atom } := by
  have hcomments : draft.bare.addComments .comments lexeme.bare.comments =
      (draft.addComments .comments lexeme.comments).bare :=
    Draft.bare_addComments_bare draft rfl lexeme
  have hatom : (l.read? lexeme.token).getD draft.bare.atom =
      ((l.read? lexeme.token).getD draft.atom).bare := by
    cases h : l.read? lexeme.token with
    | none => rfl
    | some atom => exact (Literal.bare_of_read h).symm
  have hbare : l.read? lexeme.bare.token = l.read? lexeme.token := rfl
  simp only [hbare, hatom, hcomments]
  rfl

section Rules

variable {sub : Goal → List Lexeme → Outcome Node}
  (hsub : ∀ goal, goal.isReadable = true → ReadsBare (sub goal))

theorem Part.readName_bare (kind : Kind) (draft : Draft) (lexemes : List Lexeme) {slot : Slot}
    (hslot : slot.holdsComments = false) (rule : NameRule) :
    Part.read.readName kind draft.bare (lexemes.map Lexeme.bare) slot rule =
      (Part.read.readName kind draft lexemes slot rule).bare Draft.bare := by
  cases lexemes with
  | nil => rfl
  | cons lexeme rest =>
    obtain ⟨token, span, comments⟩ := lexeme
    cases token with
    | name text =>
      simp only [Part.read.readName, List.map_cons, Lexeme.bare]
      cases rule.refuses? text with
      | some expectation => rfl
      | none =>
        have hcomments : (draft.addComments .comments comments).bare = draft.bare :=
          Draft.bare_addComments draft rfl comments
        simp only [Outcome.bare, Draft.bare_add _ hslot, hcomments, Draft.addComments_nil,
          Node.bare_ofName]
    | _ => rfl

include hsub

/-- Reading a part of a bare node. -/
theorem Part.read_bare {part : Part} (hpart : part.isReadable = true) (depth : Nat) (kind : Kind)
    (draft : Draft) (lexemes : List Lexeme) :
    part.read sub depth kind draft.bare (lexemes.map Lexeme.bare) =
      (part.read sub depth kind draft lexemes).bare Draft.bare := by
  have htidy := (Bool.and_eq_true_iff.1 hpart).2
  have hask {slot : Slot} {goal : Goal} (h : (slot, goal) ∈ part.asks) :
      slot.holdsComments = false ∧ ReadsBare (sub goal) :=
    (isReadable_of_asks hpart h).imp_right (hsub goal)
  cases part with
  | gap g => rfl
  | punct p => exact map_takeToken_bare _ _ _ (Draft.bare_addComments_bare draft rfl)
  | bracket p slot => exact map_takeToken_bare _ _ _ (Draft.bare_addComments_bare draft htidy)
  | keyword k => exact map_takeToken_bare _ _ _ (Draft.bare_addComments_bare draft rfl)
  | name slot rule =>
    exact readName_bare kind draft lexemes (by simpa [hasTidySlot] using htidy) rule
  | spacedName slot =>
    exact readName_bare kind draft lexemes (by simpa [hasTidySlot] using htidy) .any
  | literal l => exact map_takeToken_bare _ _ _ (read_literal_bare l draft)
  | child slot goal =>
    obtain ⟨hslot, hgoal⟩ := hask (List.mem_singleton_self _)
    rw [Part.read, Part.read, hgoal]
    exact Outcome.bare_map fun node => (Draft.bare_add draft hslot node).symm
  | opened p slot goal =>
    obtain ⟨hslot, hgoal⟩ := hask (List.mem_singleton_self _)
    rw [Part.read, Part.read, startsWith_bare, hgoal]
    split
    · exact Outcome.bare_map fun node => (Draft.bare_add draft hslot node).symm
    · rfl
  | listed slot goal close allowEmpty =>
    obtain ⟨hslot, hgoal⟩ := hask (List.mem_singleton_self _)
    rw [Part.read, Part.read, startsWith_bare]
    split
    · rfl
    · rw [readUntil_bare hgoal fun l => startsWith_bare _ l]
      exact Outcome.bare_map fun nodes => (Draft.bare_addAll draft hslot nodes).symm
  | repeated slot goal start =>
    obtain ⟨hslot, hgoal⟩ := hask (List.mem_singleton_self _)
    rw [Part.read, Part.read, readUntil_bare hgoal fun l => by rw [startsWith_bare]]
    exact Outcome.bare_map fun nodes => (Draft.bare_addAll draft hslot nodes).symm
  | separated slot goal delimiter =>
    obtain ⟨hslot, hgoal⟩ := hask (List.mem_singleton_self _)
    simp only [Part.read, skipDelimiter_bare, readSeparated_bare hgoal]
    refine Outcome.bare_map fun result => ?_
    rw [Draft.bare_addComments _ rfl, Draft.addComments_nil, Draft.bare_addAll _ hslot]
  | juxtaposed slot => cases htidy
  | demand p =>
    rw [Part.read, Part.read, Draft.hasParts_bare]
    split <;> rfl

/-- Reading parts of a bare node. -/
theorem readParts_bare {parts : List Part} (hparts : ∀ part ∈ parts, part.isReadable = true)
    (depth : Nat) (kind : Kind) (draft : Draft) (lexemes : List Lexeme) :
    readParts sub depth kind parts draft.bare (lexemes.map Lexeme.bare) =
      (readParts sub depth kind parts draft lexemes).bare Draft.bare := by
  induction parts generalizing draft lexemes with
  | nil => rfl
  | cons part parts ih =>
    rw [readParts, readParts, Part.read_bare hsub (hparts part List.mem_cons_self)]
    exact Outcome.bare_andThen fun draft rest =>
      ih (fun p hp => hparts p (List.mem_cons_of_mem _ hp)) draft rest

/-- Reading items of a bare node. -/
theorem readItems_bare {items : List Item} (hitems : ∀ item ∈ items, item.isReadable = true)
    (depth : Nat) (kind : Kind) (draft : Draft) (lexemes : List Lexeme) :
    readItems sub depth kind items draft.bare (lexemes.map Lexeme.bare) =
      (readItems sub depth kind items draft lexemes).bare Draft.bare := by
  induction items generalizing draft lexemes with
  | nil => rfl
  | cons item items ih =>
    have hitem := hitems item List.mem_cons_self
    have hread : item.read sub depth kind draft.bare (lexemes.map Lexeme.bare) =
        (item.read sub depth kind draft lexemes).bare Draft.bare := by
      cases item with
      | part p => exact Part.read_bare hsub hitem depth kind draft lexemes
      | group guard presence parts =>
        rw [Item.read, Item.read, Guard.holds_bare]
        split
        · exact readParts_bare hsub (List.all_eq_true.1 hitem) depth kind draft lexemes
        · rfl
    rw [readItems, readItems, hread]
    exact Outcome.bare_andThen fun draft rest =>
      ih (fun i hi => hitems i (List.mem_cons_of_mem _ hi)) draft rest

end Rules

/-! ### Nodes -/

/-- A reader's description item can be read. -/
theorem Item.isReadable_description : Item.description.isReadable = true := by
  decide

theorem Production.mem_items {p : Production} {item : Item} (h : item ∈ p.items) :
    item = .description ∨ item ∈ p.rule.items := by
  rw [Production.items] at h
  split at h
  · exact List.mem_cons.1 h
  · exact .inr h

/-- All items that a reader of a production goes through can be read. -/
theorem Production.isReadable_of_mem_items {p : Production} (hp : p.isReadable = true) :
    ∀ item ∈ p.items, item.isReadable = true := by
  intro item hitem
  rcases p.mem_items hitem with rfl | hitem
  · exact Item.isReadable_description
  · exact (Production.items_isReadable hp).2 item hitem

theorem Production.read_bare {sub : Goal → List Lexeme → Outcome Node}
    (hsub : ∀ goal, goal.isReadable = true → ReadsBare (sub goal)) {p : Production}
    (hp : p.isReadable = true) (depth : Nat) : ReadsBare (p.read sub depth) := by
  intro lexemes
  have hstart : (⟨p.rule.start, []⟩ : Draft).bare = ⟨p.rule.start, []⟩ := by
    have hcheck := Production.check (fun p => p.rule.start.bare = p.rule.start) (by decide) p
    simpa [Draft.bare] using hcheck
  have hitems := readItems_bare hsub (p.isReadable_of_mem_items hp) depth p.kind
    ⟨p.rule.start, []⟩ lexemes
  rw [hstart] at hitems
  rw [Production.read, Production.read, hitems]
  exact Outcome.bare_map fun draft => (draft.bare_finish p.kind).symm

theorem Goal.wrapType_bare (node : Node) (lexemes : List Lexeme) :
    wrapType node.bare (lexemes.map Lexeme.bare) = (wrapType node lexemes).bare Node.bare := by
  cases lexemes with
  | nil => rfl
  | cons lexeme rest =>
    obtain ⟨token, span, comments⟩ := lexeme
    by_cases h : token = .punct .exclamation
    · subst h
      have hbare : Node.bareChildren (Node.ofComments .comments comments ++ [(.type, node)]) =
          [(.type, node.bare)] := by
        rw [Node.bareChildren_append, Node.bareChildren_ofComments rfl]
        rfl
      simp only [wrapType, List.map_cons, Lexeme.bare, Outcome.bare, Node.bare_mk, hbare]
      rfl
    · have hwrap (node : Node) (span : Span) (comments : List Comment) (rest : List Lexeme) :
          wrapType node (⟨token, span, comments⟩ :: rest) =
            .done node (⟨token, span, comments⟩ :: rest) := by
        unfold wrapType
        split
        · next he => injection he with he; injection he with he; exact absurd he h
        · rfl
      rw [hwrap, List.map_cons]
      exact hwrap ..

/-- Reading a goal from tokens alone gives the bare node. -/
theorem Goal.read_bare (depth : Nat) {goal : Goal} (hgoal : goal.isReadable = true) :
    ReadsBare (goal.read depth) := by
  induction depth generalizing goal with
  | zero => intro lexemes; rfl
  | succ depth ih =>
    intro lexemes
    rw [Goal.read, Goal.read, firstToken_bare, ← List.map_tail, firstToken_bare]
    split
    · rw [← List.map_drop]
      rfl
    · next p hp =>
      have hread := Production.read_bare (fun _ h => ih h)
        (Goal.isReadable_of_mem hgoal (Goal.choose_mem hp)) depth lexemes
      simp only [hread]
      split
      · exact Outcome.bare_andThen fun node rest => wrapType_bare node rest
      · rfl

end GraphQLTree
