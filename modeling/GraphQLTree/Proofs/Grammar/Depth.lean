import GraphQLTree.Grammar.Parser
import GraphQLTree.Proofs.Grammar.Bare
import GraphQLTree.Proofs.Grammar.Starts

/-!
# Depth is enough

A reader is given a depth that the number of lexemes gives, and never runs out of it
(`Goal.read_ends`, `TokenStream.read_ends`). What it reads of a goal is at least one lexeme, so nested
goals only need more depth than lexemes where one **fronts** the other: it is asked for before any
lexeme is taken. A goal that fronts another one has no fronts itself, so two goals at most are nested
in front of the same lexeme.
-/

namespace GraphQLTree

/-! ### Progress -/

theorem Takes.length {marks : List Mark} {lexemes rest : List Lexeme}
    (h : Takes marks lexemes rest) : lexemes.length = marks.length + rest.length := by
  obtain ⟨taken, rfl, hwords⟩ := h
  have hlength := congrArg List.length hwords
  simp only [List.length_map] at hlength
  rw [List.length_append, hlength]

theorem Derives.length_pos {goal : Goal} {marks : List Mark} {pieces : List Piece} {node : Node}
    (h : Derives goal marks pieces node) : 0 < marks.length := by
  obtain ⟨mark, rest, rfl, -⟩ := h.startIn
  exact Nat.succ_pos _

/-- Elements take a lexeme, unless what they spell may have no words. -/
theorem Run.progress {elements : List Element} {draft draft' : Draft} {lexemes rest : List Lexeme}
    (h : Run elements draft draft' lexemes rest) {classes : List TokenClass} {empty : Bool}
    (hstart : Shape.StartIn classes empty (Elements.shapes elements)) :
    rest.length < lexemes.length ∨ rest = lexemes ∧ empty = true := by
  have hchildren (slot : Slot) (goal : Goal) (c : Child) (hc : .child slot goal c ∈ elements) :
      Mark.StartIn goal.starts c.marks :=
    Derives.startIn (h.derived (.child slot goal c) hc)
  rcases Elements.startIn hchildren hstart with ⟨mark, marks, hmarks, -⟩ | ⟨hnil, hempty⟩
  · have hlength := h.taken.length
    rw [hmarks, List.length_cons] at hlength
    exact .inl (by omega)
  · obtain ⟨taken, rfl, hwords⟩ := h.taken
    rw [hnil] at hwords
    obtain rfl := List.map_eq_nil_iff.1 hwords
    exact .inr ⟨rfl, hempty⟩

/-- A goal takes one lexeme at least. -/
theorem ReadsSoundly.length_lt {sub : Goal → List Lexeme → Outcome Node} (hsub : ReadsSoundly sub)
    {goal : Goal} (hgoal : goal.isReadable = true) {lexemes rest : List Lexeme} {node : Node}
    (h : sub goal lexemes = .done node rest) : rest.length < lexemes.length := by
  obtain ⟨c, -, htaken, hd⟩ := hsub goal lexemes node rest hgoal h
  have hlength := htaken.length
  have hpos := hd.length_pos
  omega

/-! ### Fronts -/

/-- The goals that may be asked for by parts before any lexeme is taken. -/
def frontsOfParts : List Part → List Goal
  | [] => []
  | part :: parts =>
    part.asks.map Prod.snd ++ if part.mayBeEmpty then frontsOfParts parts else []

/-- The goals that may be asked for by an item before any lexeme is taken. -/
def Item.fronts (item : Item) : List Goal :=
  frontsOfParts item.parts

/-- The goals that may be asked for by items before any lexeme is taken. -/
def frontsOfItems : List Item → List Goal
  | [] => []
  | item :: items => item.fronts ++ if item.mayBeEmpty then frontsOfItems items else []

theorem readable_of_frontsOfParts {parts : List Part}
    (hparts : ∀ part ∈ parts, part.isReadable = true) {goal : Goal}
    (h : goal ∈ frontsOfParts parts) : goal.isReadable = true := by
  induction parts with
  | nil => cases h
  | cons part parts ih =>
    rcases List.mem_append.1 h with h | h
    · obtain ⟨ask, hask, rfl⟩ := List.mem_map.1 h
      have hpart := (Bool.and_eq_true_iff.1 (hparts part List.mem_cons_self)).1
      exact (Bool.and_eq_true_iff.1 (List.all_eq_true.1 hpart ask hask)).2
    · split at h
      · exact ih (fun p hp => hparts p (List.mem_cons_of_mem _ hp)) h
      · cases h

/-- Goals that items may ask for first can be read. -/
theorem readable_of_frontsOfItems {items : List Item}
    (hitems : ∀ item ∈ items, item.isReadable = true) {goal : Goal}
    (h : goal ∈ frontsOfItems items) : goal.isReadable = true := by
  induction items with
  | nil => cases h
  | cons item items ih =>
    rcases List.mem_append.1 h with h | h
    · exact readable_of_frontsOfParts
        (fun part hpart => Item.isReadable_of_mem (hitems item List.mem_cons_self) hpart) h
    · split at h
      · exact ih (fun i hi => hitems i (List.mem_cons_of_mem _ hi)) h
      · cases h

/-- The depth that a goal needs besides that for its lexemes. -/
def Goal.height (goal : Goal) : Nat :=
  if goal.productions.all fun p => frontsOfItems p.items = [] then 0 else 1

/-- What fronts a production has no fronts itself. -/
theorem Production.height_of_front {p : Production} (hp : p.isReadable = true) {goal : Goal}
    (h : goal ∈ frontsOfItems p.items) : goal.isReadable = true ∧ goal.height = 0 := by
  have hcheck := Production.check (fun p => !p.isReadable ||
    (frontsOfItems p.items).all fun goal => goal.isReadable && goal.height = 0)
    (by decide) p
  simp only [hp, Bool.not_true, Bool.false_or, List.all_eq_true, Bool.and_eq_true,
    decide_eq_true_eq] at hcheck
  exact hcheck goal h

theorem Goal.height_le (goal : Goal) : goal.height ≤ 1 := by
  unfold height
  split <;> omega

theorem Goal.fronts_eq_nil {goal : Goal} (h : goal.height = 0) {p : Production}
    (hp : p ∈ goal.productions) : frontsOfItems p.items = [] := by
  unfold height at h
  split at h
  · next hall => exact of_decide_eq_true (List.all_eq_true.1 hall p hp)
  · cases h

/-! ### Repetition -/

/-- Whether a reader doesn't run out of depth. -/
def Outcome.Ends {α : Type} (outcome : Outcome α) : Prop :=
  outcome ≠ .exhausted

namespace Outcome

variable {α β : Type}

theorem Ends.andThen {outcome : Outcome α} (h : outcome.Ends)
    {next : α → List Lexeme → Outcome β}
    (hnext : ∀ result rest, outcome = .done result rest → (next result rest).Ends) :
    (outcome.andThen next).Ends := by
  cases outcome with
  | done result rest => exact hnext result rest rfl
  | failed failure rest => exact fun he => by cases he
  | exhausted => exact absurd rfl h

theorem Ends.map {outcome : Outcome α} (h : outcome.Ends) (f : α → β) : (outcome.map f).Ends :=
  h.andThen fun result rest _ he => by cases he

theorem ends_done {result : α} {rest : List Lexeme} : (done result rest).Ends :=
  fun he => by cases he

theorem ends_failed {failure : Failure} {rest : List Lexeme} :
    (failed failure rest : Outcome α).Ends :=
  fun he => by cases he

end Outcome

theorem takeToken_ends (accepts : Token → Bool) (failure : Failure) (lexemes : List Lexeme) :
    (takeToken accepts failure lexemes).Ends := by
  cases lexemes with
  | nil => exact Outcome.ends_failed
  | cons lexeme rest =>
    rw [takeToken]
    split
    · exact Outcome.ends_done
    · exact Outcome.ends_failed

section Ends

variable {sub : Goal → List Lexeme → Outcome Node} (hsub : ReadsSoundly sub)

/-- Whether a reader of goals doesn't run out of depth on fewer than so many lexemes. -/
def EndsBelow (sub : Goal → List Lexeme → Outcome Node) (n : Nat) : Prop :=
  ∀ goal : Goal, goal.isReadable = true → ∀ lexemes : List Lexeme, lexemes.length < n →
    (sub goal lexemes).Ends

variable {goal : Goal} (hgoal : goal.isReadable = true)
include hsub hgoal

theorem readUntil_ends (stop : List Lexeme → Bool) {depth : Nat} {lexemes : List Lexeme}
    (hfirst : (sub goal lexemes).Ends) (hlater : EndsBelow sub lexemes.length)
    (hdepth : lexemes.length < depth) :
    (readUntil (sub goal) stop depth lexemes).Ends := by
  induction depth generalizing lexemes with
  | zero => omega
  | succ depth ih =>
    rw [readUntil]
    split
    · exact Outcome.ends_done
    · refine hfirst.andThen fun node rest hread => ?_
      have hlt := hsub.length_lt hgoal hread
      refine (ih (hlater goal hgoal rest hlt) ?_ (by omega)).map _
      exact fun g hg l hl => hlater g hg l (by omega)

theorem readSeparated_ends (delimiter : Punctuator) {depth : Nat} {lexemes : List Lexeme}
    (hfirst : (sub goal lexemes).Ends) (hlater : EndsBelow sub lexemes.length)
    (hdepth : lexemes.length < depth) :
    (readSeparated (sub goal) delimiter depth lexemes).Ends := by
  induction depth generalizing lexemes with
  | zero => omega
  | succ depth ih =>
    rw [readSeparated]
    refine hfirst.andThen fun node rest hread => ?_
    have hlt := hsub.length_lt hgoal hread
    cases rest with
    | nil => exact Outcome.ends_done
    | cons lexeme rest =>
      rw [List.length_cons] at hlt
      simp only
      split
      · refine (ih (hlater goal hgoal rest (by omega)) ?_ (by omega)).map _
        exact fun g hg l hl => hlater g hg l (by omega)
      · exact Outcome.ends_done

end Ends

/-! ### Parts and items -/

section Rules

variable {sub : Goal → List Lexeme → Outcome Node} (hsub : ReadsSoundly sub) {depth : Nat}
  {kind : Kind} {lexemes : List Lexeme} (hlater : EndsBelow sub lexemes.length)
  (hdepth : lexemes.length < depth)
include hsub hlater hdepth

theorem Part.read_ends {part : Part} (hpart : part.isReadable = true)
    (hfronts : ∀ ask ∈ part.asks, (sub ask.2 lexemes).Ends) (draft : Draft) :
    (part.read sub depth kind draft lexemes).Ends := by
  have hreadable {ask : Slot × Goal} (h : ask ∈ part.asks) : ask.2.isReadable = true :=
    (isReadable_of_asks hpart h).2
  have hname (slot : Slot) (rule : NameRule) :
      (Part.read.readName kind draft lexemes slot rule).Ends := by
    unfold Part.read.readName
    split
    · split
      · exact Outcome.ends_failed
      · exact Outcome.ends_done
    · exact Outcome.ends_failed
  cases part with
  | gap g => exact Outcome.ends_done
  | punct p => exact Outcome.Ends.map (takeToken_ends _ _ _) _
  | bracket p slot => exact Outcome.Ends.map (takeToken_ends _ _ _) _
  | keyword k => exact Outcome.Ends.map (takeToken_ends _ _ _) _
  | name slot rule => exact hname slot rule
  | spacedName slot => exact hname slot .any
  | literal l => exact Outcome.Ends.map (takeToken_ends _ _ _) _
  | child slot goal => exact (hfronts (slot, goal) (List.mem_singleton_self _)).map _
  | opened p slot goal =>
    rw [Part.read]
    split
    · exact (hfronts (slot, goal) (List.mem_singleton_self _)).map _
    · exact Outcome.ends_failed
  | listed slot goal close allowEmpty =>
    have hmem := List.mem_singleton_self (slot, goal)
    rw [Part.read]
    split
    · exact Outcome.ends_failed
    · exact (readUntil_ends hsub (hreadable hmem) _ (hfronts _ hmem) hlater hdepth).map _
  | repeated slot goal start =>
    have hmem := List.mem_singleton_self (slot, goal)
    exact (readUntil_ends hsub (hreadable hmem) _ (hfronts _ hmem) hlater hdepth).map _
  | separated slot goal delimiter =>
    have hmem := List.mem_singleton_self (slot, goal)
    -- A skipped delimiter leaves fewer lexemes, from which every goal ends.
    have hread (draft : Draft) (l : List Lexeme)
        (hl : l = lexemes ∨ l.length < lexemes.length) :
        (readSeparated (sub goal) delimiter depth l).Ends := by
      rcases hl with rfl | hl
      · exact readSeparated_ends hsub (hreadable hmem) delimiter (hfronts _ hmem) hlater hdepth
      · refine readSeparated_ends hsub (hreadable hmem) delimiter
          (hlater goal (hreadable hmem) l hl) ?_ (by omega)
        exact fun g hg l' hl' => hlater g hg l' (by omega)
    refine Outcome.Ends.map (hread draft _ ?_) _
    cases lexemes with
    | nil => exact .inl rfl
    | cons lexeme rest =>
      simp only
      split
      · exact .inr (Nat.lt_succ_self _)
      · exact .inl rfl
  | juxtaposed slot => exact Outcome.ends_done
  | demand p =>
    rw [Part.read]
    split
    · exact Outcome.ends_done
    · exact Outcome.ends_failed

theorem readParts_ends {parts : List Part} (hparts : ∀ part ∈ parts, part.isReadable = true)
    (hfronts : ∀ goal ∈ frontsOfParts parts, (sub goal lexemes).Ends) (draft : Draft) :
    (readParts sub depth kind parts draft lexemes).Ends := by
  induction parts generalizing lexemes draft with
  | nil => exact Outcome.ends_done
  | cons part parts ih =>
    have hpart := hparts part List.mem_cons_self
    refine Outcome.Ends.andThen (Part.read_ends hsub hlater hdepth hpart (fun ask hask => ?_) draft)
      fun d rest hread => ?_
    · exact hfronts ask.2 (List.mem_append_left _ (List.mem_map_of_mem hask))
    · obtain ⟨elements, hspells, hrun⟩ := Part.read_sound hsub hpart hread
      have htail := fun p hp => hparts p (List.mem_cons_of_mem _ hp)
      rcases hrun.progress hspells.startIn with hlt | ⟨rfl, hempty⟩
      · have hbelow : EndsBelow sub rest.length := fun g hg l hl => hlater g hg l (by omega)
        refine ih hbelow (by omega) htail (fun goal hgoal => ?_) d
        exact hlater goal (readable_of_frontsOfParts htail hgoal) rest hlt
      · refine ih hlater hdepth htail (fun goal hgoal => hfronts goal ?_) d
        rw [frontsOfParts, if_pos hempty]
        exact List.mem_append_right _ hgoal

theorem Item.read_ends {item : Item} (hitem : item.isReadable = true)
    (hfronts : ∀ goal ∈ item.fronts, (sub goal lexemes).Ends) (draft : Draft) :
    (item.read sub depth kind draft lexemes).Ends := by
  cases item with
  | part p =>
    refine Part.read_ends hsub hlater hdepth hitem (fun ask hask => hfronts ask.2 ?_) draft
    exact List.mem_append_left _ (List.mem_map_of_mem hask)
  | group guard presence parts =>
    rw [Item.read]
    split
    · exact readParts_ends hsub hlater hdepth (List.all_eq_true.1 hitem) hfronts draft
    · exact Outcome.ends_done

theorem readItems_ends {items : List Item} (hitems : ∀ item ∈ items, item.isReadable = true)
    (hfronts : ∀ goal ∈ frontsOfItems items, (sub goal lexemes).Ends) (draft : Draft) :
    (readItems sub depth kind items draft lexemes).Ends := by
  induction items generalizing lexemes draft with
  | nil => exact Outcome.ends_done
  | cons item items ih =>
    have hitem := hitems item List.mem_cons_self
    refine Outcome.Ends.andThen (Item.read_ends hsub hlater hdepth hitem (fun goal hgoal => ?_) draft)
      fun d rest hread => ?_
    · exact hfronts goal (List.mem_append_left _ hgoal)
    · obtain ⟨elements, hspells, hrun⟩ := Item.read_sound hsub hitem hread
      have htail := fun i hi => hitems i (List.mem_cons_of_mem _ hi)
      rcases hrun.progress hspells.startIn with hlt | ⟨rfl, hempty⟩
      · have hbelow : EndsBelow sub rest.length := fun g hg l hl => hlater g hg l (by omega)
        refine ih hbelow (by omega) htail (fun goal hgoal => ?_) d
        exact hlater goal (readable_of_frontsOfItems htail hgoal) rest hlt
      · refine ih hlater hdepth htail (fun goal hgoal => hfronts goal ?_) d
        rw [frontsOfItems, if_pos hempty]
        exact List.mem_append_right _ hgoal

end Rules

/-! ### Goals and targets -/

theorem Goal.wrapType_ends (node : Node) (lexemes : List Lexeme) :
    (wrapType node lexemes).Ends := by
  unfold wrapType
  split <;> exact Outcome.ends_done

/-- A reader with more depth than twice the number of lexemes doesn't run out of it. -/
theorem Goal.read_ends {goal : Goal} (hgoal : goal.isReadable = true) {depth : Nat}
    {lexemes : List Lexeme} (hdepth : 2 * lexemes.length + goal.height + 1 < depth) :
    (goal.read depth lexemes).Ends := by
  induction depth generalizing goal lexemes with
  | zero => omega
  | succ depth ih =>
    rw [Goal.read]
    split
    · exact Outcome.ends_failed
    · next p hp =>
      have hmem := Goal.choose_mem hp
      have hreadable := Goal.isReadable_of_mem hgoal hmem
      -- Fewer lexemes leave depth for any goal, the same ones for goals without fronts.
      have hlater : EndsBelow (Goal.read depth) lexemes.length := by
        intro g hg l hl
        have := g.height_le
        exact ih hg (by omega)
      have hfronts (g : Goal) (hg : g ∈ frontsOfItems p.items) : (g.read depth lexemes).Ends := by
        obtain ⟨hg', hheight⟩ := Production.height_of_front hreadable hg
        have hne : goal.height ≠ 0 := fun h => by
          rw [Goal.fronts_eq_nil h hmem] at hg
          cases hg
        exact ih hg' (by omega)
      have hread : (p.read (Goal.read depth) depth lexemes).Ends :=
        (readItems_ends (Goal.read_sound depth) hlater (by omega)
          (p.isReadable_of_mem_items hreadable) hfronts _).map _
      simp only
      split
      · exact hread.andThen fun node rest _ => wrapType_ends node rest
      · exact hread

/-- The depth that a stream gives is enough for any goal. -/
theorem Goal.read_ends_of_depthFor {goal : Goal} (hgoal : goal.isReadable = true)
    (lexemes : List Lexeme) : (goal.read (depthFor lexemes) lexemes).Ends := by
  have hheight := goal.height_le
  exact read_ends hgoal (by unfold depthFor; omega)

/-- A document is read with depth enough. -/
theorem TokenStream.readDocument_ends (stream : TokenStream) : stream.readDocument.Ends := by
  have hreadable : Goal.definition.isReadable = true := by decide
  have hheight := Goal.definition.height_le
  have hdepth : Goal.depthFor stream.lexemes = 4 * (stream.lexemes.length + 1) := rfl
  have hfirst := Goal.read_ends_of_depthFor hreadable stream.lexemes
  have hlater : EndsBelow (Goal.read (Goal.depthFor stream.lexemes)) stream.lexemes.length := by
    intro g hg l hl
    have := g.height_le
    exact Goal.read_ends hg (by omega)
  refine Outcome.Ends.andThen (readUntil_ends (Goal.read_sound _) hreadable _ hfirst hlater
    (by omega)) fun definitions rest _ => ?_
  split
  · exact Outcome.ends_failed
  · exact Outcome.ends_done

end GraphQLTree
