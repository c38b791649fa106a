import GraphQLTree.Proofs.Grammar.Gather
import GraphQLTree.Proofs.Grammar.Narrowing

/-!
# Variables in values

The variables of a value stand in its text in the order in which they stand in its tree: the lexemes
that a reader of the general family takes **name** the variables of the node that it gives, one dollar
sign for each of them (`Goal.read_names`).
-/

namespace GraphQLTree

namespace Node

/-- The name of the variable that a node is, if it is one. -/
def variableUse? (node : Node) : List String :=
  if node.kind = .variableUse then [(node.nameIn? .name).getD ""] else []

/-- The names of the variables in a tree, in order. -/
def variableUses (node : Node) : List String :=
  node.gather variableUse?

/-- The variables in some children. -/
def usesIn (entries : List (Slot × Node)) : List String :=
  entries.flatMap fun entry => entry.2.variableUses

theorem variableUses_mk {kind : Kind} (h : kind ≠ .variableUse) (atom : Atom)
    (children : List (Slot × Node)) : variableUses (mk kind atom children) = usesIn children := by
  have hnone : variableUse? (mk kind atom children) = [] := if_neg h
  rw [variableUses, gather_mk, hnone]
  rfl

theorem variableUses_variableUse (atom : Atom) (children : List (Slot × Node)) :
    variableUses (mk .variableUse atom children) =
      ((mk .variableUse atom children).nameIn? .name).getD "" :: usesIn children := by
  rw [variableUses, gather_mk]
  rfl

@[simp] theorem variableUses_ofName (text : String) : (ofName text).variableUses = [] :=
  variableUses_mk Kind.noConfusion _ _

theorem variableUses_ofComment (comment : Comment) : (ofComment comment).variableUses = [] := by
  rw [ofComment]
  cases comment.inline <;> exact variableUses_mk Kind.noConfusion _ _

theorem usesIn_append (a b : List (Slot × Node)) :
    usesIn (a ++ b) = usesIn a ++ usesIn b :=
  List.flatMap_append

/-- Arranging children keeps the order of their variables if all of them stand in one slot. -/
theorem usesIn_arrange {kind : Kind} {slot : Slot} (hslot : slot ∈ kind.slots)
    {entries : List (Slot × Node)} (h : ∀ entry ∈ entries, entry.1 ≠ slot → entry.2.variableUses = []) :
    usesIn (arrange kind entries) = usesIn entries := by
  have hother {other : Slot} (hother : other ≠ slot) :
      usesIn (entries.filter fun entry => entry.1 = other) = [] := by
    refine List.flatMap_eq_nil_iff.2 fun entry hentry => ?_
    obtain ⟨hmem, heq⟩ := List.mem_filter.1 hentry
    exact h entry hmem fun he => hother ((of_decide_eq_true heq).symm.trans he)
  have hown : usesIn (entries.filter fun entry => entry.1 = slot) = usesIn entries := by
    clear hother
    induction entries with
    | nil => rfl
    | cons entry entries ih =>
      obtain ⟨hentry, hentries⟩ := List.forall_mem_cons.1 h
      have ih := ih hentries
      unfold usesIn at ih ⊢
      by_cases heq : entry.1 = slot
      · simp [heq, ih]
      · simp [heq, ih, hentry heq]
  have hslots (slots : List Slot) (hnodup : slots.Nodup) :
      usesIn (slots.flatMap fun slot => entries.filter fun entry => entry.1 = slot) =
        if slot ∈ slots then usesIn entries else [] := by
    induction slots with
    | nil => rfl
    | cons first slots ih =>
      obtain ⟨hfirst, hnodup⟩ := List.nodup_cons.1 hnodup
      rw [List.flatMap_cons, usesIn_append, ih hnodup]
      by_cases heq : first = slot
      · subst heq
        simp [hfirst, hown]
      · simp [hother heq, Ne.symm heq]
  rw [arrange_eq_flatMap, hslots _ kind.nodup_slots, if_pos hslot]

end Node

/-! ### Names in lexemes -/

/-- The names behind the dollar signs of some lexemes, all of which have one. -/
inductive Naming : List Lexeme → List String → Prop
  | nil : Naming [] []
  | use {dollar name : Lexeme} {lexemes : List Lexeme} {text : String} {texts : List String}
    (hdollar : dollar.token = .punct .dollar) (hname : name.token = .name text)
    (h : Naming lexemes texts) : Naming (dollar :: name :: lexemes) (text :: texts)
  | other {lexeme : Lexeme} {lexemes : List Lexeme} {texts : List String}
    (hother : lexeme.token ≠ .punct .dollar) (h : Naming lexemes texts) :
    Naming (lexeme :: lexemes) texts

namespace Naming

theorem append {a b : List Lexeme} {as bs : List String} (ha : Naming a as) (hb : Naming b bs) :
    Naming (a ++ b) (as ++ bs) := by
  induction ha with
  | nil => exact hb
  | use hdollar hname h ih => exact .use hdollar hname ih
  | other hother h ih => exact .other hother ih

theorem of_token {lexeme : Lexeme} (h : lexeme.token ≠ .punct .dollar) : Naming [lexeme] [] :=
  .other h .nil

/-- Without variables there are no dollar signs. -/
theorem constant {lexemes : List Lexeme} (h : Naming lexemes []) : Constant lexemes := by
  generalize htexts : ([] : List String) = texts at h
  induction h with
  | nil => exact List.forall_mem_nil _
  | use hdollar hname h ih => cases htexts
  | other hother h ih => exact List.forall_mem_cons.2 ⟨hother, ih htexts⟩

/-- The first variable is behind the first dollar sign. -/
theorem exists_first {lexemes : List Lexeme} {text : String} {texts : List String}
    (h : Naming lexemes (text :: texts)) : ∃ before dollar name after,
      lexemes = before ++ dollar :: name :: after ∧ Constant before ∧
        dollar.token = .punct .dollar ∧ name.token = .name text := by
  generalize htexts : text :: texts = all at h
  induction h with
  | nil => cases htexts
  | @use dollar name lexemes text' texts' hdollar hname h ih =>
    cases htexts
    exact ⟨[], dollar, name, lexemes, rfl, List.forall_mem_nil _, hdollar, hname⟩
  | @other lexeme lexemes texts' hother h ih =>
    obtain ⟨before, dollar, name, after, rfl, hbefore, hdollar, hname⟩ := ih htexts
    exact ⟨lexeme :: before, dollar, name, after, rfl, List.forall_mem_cons.2 ⟨hother, hbefore⟩,
      hdollar, hname⟩

end Naming

namespace Outcome

variable {α β : Type}

/-- Whether the lexemes that were read for a result name what the result `has`. -/
def Names (has : α → List String → Prop) (lexemes : List Lexeme) : Outcome α → Prop
  | done result rest => ∃ taken texts, lexemes = taken ++ rest ∧ Naming taken texts ∧ has result texts
  | failed _ _ => True
  | exhausted => True

theorem Names.andThen {has : α → List String → Prop} {has' : β → List String → Prop}
    {lexemes : List Lexeme} {outcome : Outcome α} (h : outcome.Names has lexemes)
    {next : α → List Lexeme → Outcome β}
    (hnext : ∀ result texts rest, has result texts →
      (next result rest).Names (fun result' texts' => has' result' (texts ++ texts')) rest) :
    (outcome.andThen next).Names has' lexemes := by
  cases outcome with
  | done result rest =>
    obtain ⟨taken, texts, rfl, htaken, hhas⟩ := h
    have hnext := hnext result texts rest hhas
    change (next result rest).Names has' (taken ++ rest)
    cases hout : next result rest with
    | done result' rest' =>
      rw [hout] at hnext
      obtain ⟨taken', texts', rfl, htaken', hhas'⟩ := hnext
      exact ⟨taken ++ taken', texts ++ texts', (List.append_assoc ..).symm, htaken.append htaken', hhas'⟩
    | failed failure rest' => trivial
    | exhausted => trivial
  | failed failure rest => trivial
  | exhausted => trivial

theorem Names.done {has : α → List String → Prop} {result : α} (h : has result [])
    (lexemes : List Lexeme) : (Outcome.done result lexemes).Names has lexemes :=
  ⟨[], [], rfl, .nil, h⟩

theorem Names.map {has : α → List String → Prop} {has' : β → List String → Prop}
    {lexemes : List Lexeme} {outcome : Outcome α} (h : outcome.Names has lexemes) {f : α → β}
    (hf : ∀ result texts, has result texts → has' (f result) texts) :
    (outcome.map f).Names has' lexemes := by
  refine h.andThen fun result texts rest hhas => .done ?_ rest
  rw [List.append_nil]
  exact hf result texts hhas

end Outcome

/-! ### Parts -/

/-- Whether a draft has some variables, in this order and in children in one slot only. -/
structure Draft.Has (slot : Slot) (draft : Draft) (texts : List String) : Prop where
  uses : Node.usesIn draft.entries = texts
  elsewhere : ∀ entry ∈ draft.entries, entry.1 ≠ slot → entry.2.variableUses = []

namespace Draft.Has

variable {slot : Slot} {draft : Draft} {texts : List String} (h : draft.Has slot texts)
include h

/-- Children without variables may be added anywhere. -/
theorem add_quiet {entries : List (Slot × Node)} (hquiet : ∀ entry ∈ entries, entry.2.variableUses = [])
    (atom : Atom) : Has slot ⟨atom, draft.entries ++ entries⟩ texts where
  uses := by
    have hnil : Node.usesIn entries = [] := List.flatMap_eq_nil_iff.2 hquiet
    rw [Node.usesIn_append, hnil, List.append_nil, h.uses]
  elsewhere := List.forall_mem_append.2 ⟨h.elsewhere, fun entry hentry _ => hquiet entry hentry⟩

theorem addComments (slot' : Slot) (comments : List Comment) :
    (draft.addComments slot' comments).Has slot texts := by
  refine h.add_quiet (fun entry hentry => ?_) draft.atom
  obtain ⟨comment, -, rfl⟩ := List.mem_map.1 hentry
  exact Node.variableUses_ofComment comment

theorem addName (slot' : Slot) (text : String) : (draft.add slot' (.ofName text)).Has slot texts :=
  h.add_quiet (List.forall_mem_singleton.2 (Node.variableUses_ofName text)) draft.atom

theorem addAll (nodes : List Node) :
    (draft.addAll slot nodes).Has slot (texts ++ nodes.flatMap Node.variableUses) where
  uses := by
    rw [Draft.addAll, Node.usesIn_append, h.uses, Node.usesIn, List.flatMap_map]
  elsewhere := by
    refine List.forall_mem_append.2 ⟨h.elsewhere, fun entry hentry hne => absurd ?_ hne⟩
    obtain ⟨node, -, rfl⟩ := List.mem_map.1 hentry
    rfl

theorem add (node : Node) : (draft.add slot node).Has slot (texts ++ node.variableUses) := by
  have hadd := h.addAll [node]
  rwa [List.flatMap_singleton] at hadd

/-- The finished node has the variables of the draft. -/
theorem finish {kind : Kind} (hkind : kind ≠ .variableUse) (hslot : slot ∈ kind.slots) :
    (draft.finish kind).variableUses = texts := by
  rw [Draft.finish, Node.variableUses_mk hkind, Node.usesIn_arrange hslot h.elsewhere, h.uses]

end Draft.Has

/-- Whether the children that a part asks for stand in a slot. -/
def Part.fillsOnly (slot : Slot) (part : Part) : Bool :=
  part.asks.all fun ask => ask.1 = slot

/-- Whether the children that an item asks for stand in a slot. -/
def Item.fillsOnly (slot : Slot) : Item → Bool
  | part p => p.fillsOnly slot
  | group _ _ parts => parts.all (Part.fillsOnly slot)

/-- A token other than a dollar sign names nothing. -/
theorem takeToken_names {accepts : Token → Bool} (h : accepts (.punct .dollar) = false)
    (failure : Failure) (lexemes : List Lexeme) :
    (takeToken accepts failure lexemes).Names (fun _ texts => texts = []) lexemes := by
  cases lexemes with
  | nil => trivial
  | cons lexeme rest =>
    rw [takeToken]
    split
    · next haccepts =>
      refine ⟨[lexeme], [], rfl, .of_token fun hdollar => ?_, rfl⟩
      rw [hdollar, h] at haccepts
      cases haccepts
    · trivial

section Rules

variable {sub : Goal → List Lexeme → Outcome Node}
  (hsub : ∀ goal, goal.isOf .general = true → ∀ lexemes,
    (sub goal lexemes).Names (fun node texts => node.variableUses = texts) lexemes)

/-- A name adds no variable. -/
theorem Part.readName_names {slot : Slot} {draft : Draft} {texts : List String}
    (hdraft : draft.Has slot texts) (kind : Kind) (lexemes : List Lexeme) (slot' : Slot)
    (rule : NameRule) : (Part.read.readName kind draft lexemes slot' rule).Names
      (fun draft' texts' => draft'.Has slot (texts ++ texts')) lexemes := by
  unfold Part.read.readName
  split
  · next text span comments rest =>
    split
    · trivial
    · refine ⟨[⟨.name text, span, comments⟩], [], rfl, .of_token Token.noConfusion, ?_⟩
      beta_reduce
      rw [List.append_nil]
      exact (hdraft.addComments .comments comments).addName slot' text
  · trivial

include hsub

theorem readUntil_names {goal : Goal} (hgoal : goal.isOf .general = true)
    (stop : List Lexeme → Bool) (depth : Nat) (lexemes : List Lexeme) :
    (readUntil (sub goal) stop depth lexemes).Names
      (fun nodes texts => nodes.flatMap Node.variableUses = texts) lexemes := by
  induction depth generalizing lexemes with
  | zero =>
    rw [readUntil]
    split
    · exact .done rfl lexemes
    · trivial
  | succ depth ih =>
    rw [readUntil]
    split
    · exact .done rfl lexemes
    · refine (hsub goal hgoal lexemes).andThen fun node texts rest hnode => ?_
      refine (ih rest).map fun nodes texts' hnodes => ?_
      rw [List.flatMap_cons, hnode, hnodes]

/-- The lexemes of a part name the variables that it adds to the draft. -/
theorem Part.read_names {part : Part} (hpart : part.isOf .general = true) {slot : Slot}
    (hslot : part.fillsOnly slot = true) {draft : Draft} {texts : List String}
    (hdraft : draft.Has slot texts) (depth : Nat) (kind : Kind) (lexemes : List Lexeme) :
    (part.read sub depth kind draft lexemes).Names
      (fun draft' texts' => draft'.Has slot (texts ++ texts')) lexemes := by
  have hsame {draft' : Draft} (h : draft'.Has slot texts) (texts' : List String)
      (htexts : texts' = []) : draft'.Has slot (texts ++ texts') := by
    rwa [htexts, List.append_nil]
  -- Children are added to the slot that is looked at, as the part fills no other.
  have hown {slot' : Slot} (h : ∀ ask ∈ part.asks, ask.1 = slot') : ∀ ask ∈ part.asks, slot = slot' :=
    fun ask hask => (of_decide_eq_true (List.all_eq_true.1 hslot ask hask)).symm.trans (h ask hask)
  cases part with
  | gap g => exact .done (hsame hdraft [] rfl) lexemes
  | punct p =>
    have hp : p ≠ .dollar := of_decide_eq_true hpart
    -- An own token that isn't a dollar sign names no variable, and its comments hold none.
    exact (takeToken_names (by simpa using hp.symm) _ lexemes).map fun lexeme =>
      hsame (hdraft.addComments .comments lexeme.comments)
  | bracket p slot' =>
    have hp : p ≠ .dollar := of_decide_eq_true hpart
    exact (takeToken_names (by simpa using hp.symm) _ lexemes).map fun lexeme =>
      hsame (hdraft.addComments slot' lexeme.comments)
  | keyword k =>
    exact (takeToken_names rfl _ lexemes).map fun lexeme =>
      hsame (hdraft.addComments .comments lexeme.comments)
  | name slot' rule => exact readName_names hdraft kind lexemes slot' rule
  | literal l =>
    exact (takeToken_names (by simp [Literal.read?_dollar]) _ lexemes).map fun lexeme =>
      hsame (hdraft.add_quiet (fun entry hentry => by
        obtain ⟨comment, -, rfl⟩ := List.mem_map.1 hentry
        exact Node.variableUses_ofComment comment) _)
  | child slot' goal =>
    obtain rfl : slot = slot' := hown (by simp [asks]) (slot', goal) (List.mem_singleton_self _)
    refine (hsub goal hpart lexemes).map fun node texts' hnode => ?_
    rw [← hnode]
    exact hdraft.add node
  | listed slot' goal close allowEmpty =>
    obtain rfl : slot = slot' := hown (by simp [asks]) (slot', goal) (List.mem_singleton_self _)
    rw [Part.read]
    split
    · trivial
    · refine (readUntil_names hsub hpart _ depth lexemes).map fun nodes texts' hnodes => ?_
      rw [← hnodes]
      exact hdraft.addAll nodes
  | _ => cases hpart

theorem readParts_names {parts : List Part} (hparts : ∀ part ∈ parts, part.isOf .general = true)
    {slot : Slot} (hslot : ∀ part ∈ parts, part.fillsOnly slot = true) {draft : Draft}
    {texts : List String} (hdraft : draft.Has slot texts) (depth : Nat) (kind : Kind)
    (lexemes : List Lexeme) : (readParts sub depth kind parts draft lexemes).Names
      (fun draft' texts' => draft'.Has slot (texts ++ texts')) lexemes := by
  induction parts generalizing draft texts lexemes with
  | nil => exact .done (by rwa [List.append_nil]) lexemes
  | cons part parts ih =>
    obtain ⟨hpart, hparts⟩ := List.forall_mem_cons.1 hparts
    obtain ⟨hfirst, hslot⟩ := List.forall_mem_cons.1 hslot
    refine (Part.read_names hsub hpart hfirst hdraft depth kind lexemes).andThen
      fun draft' texts' rest hdraft' => ?_
    simpa only [List.append_assoc] using ih hparts hslot hdraft' rest

theorem readItems_names {items : List Item} (hitems : ∀ item ∈ items, item.isOf .general = true)
    {slot : Slot} (hslot : ∀ item ∈ items, item.fillsOnly slot = true) {draft : Draft}
    {texts : List String} (hdraft : draft.Has slot texts) (depth : Nat) (kind : Kind)
    (lexemes : List Lexeme) : (readItems sub depth kind items draft lexemes).Names
      (fun draft' texts' => draft'.Has slot (texts ++ texts')) lexemes := by
  induction items generalizing draft texts lexemes with
  | nil => exact .done (by rwa [List.append_nil]) lexemes
  | cons item items ih =>
    obtain ⟨hitem, hitems⟩ := List.forall_mem_cons.1 hitems
    obtain ⟨hfirst, hslot⟩ := List.forall_mem_cons.1 hslot
    have hread : (item.read sub depth kind draft lexemes).Names
        (fun draft' texts' => draft'.Has slot (texts ++ texts')) lexemes := by
      cases item with
      | part p => exact Part.read_names hsub hitem hfirst hdraft depth kind lexemes
      | group guard presence parts =>
        rw [Item.read]
        split
        · exact readParts_names hsub (List.all_eq_true.1 hitem) (List.all_eq_true.1 hfirst) hdraft
            depth kind lexemes
        · exact .done (by rwa [List.append_nil]) lexemes
    refine hread.andThen fun draft' texts' rest hdraft' => ?_
    simpa only [List.append_assoc] using ih hitems hslot hdraft' rest

end Rules

/-! ### Nodes -/

/-- A node of the general family that isn't a variable has children with variables in one slot only. -/
theorem Production.exists_slot_of_isOf {p : Production} (h : p.isOf .general = true) :
    p.kind ≠ .variableUse ∧ (∀ item ∈ p.items, item.isOf .general = true) ∧
      ∃ slot ∈ p.kind.slots, ∀ item ∈ p.items, item.fillsOnly slot = true := by
  have hcheck := check (fun p => !p.isOf .general || (p.kind ≠ .variableUse &&
    p.items.all (Item.isOf .general) &&
      p.kind.slots.any fun slot => p.items.all (Item.fillsOnly slot))) (by decide) p
  simpa [h, and_assoc] using hcheck

/-- The lexemes of a node of the general family name its variables. -/
theorem Production.read_names {sub : Goal → List Lexeme → Outcome Node}
    (hsub : ∀ goal, goal.isOf .general = true → ∀ lexemes,
      (sub goal lexemes).Names (fun node texts => node.variableUses = texts) lexemes)
    {p : Production} (hp : p.isOf .general = true) (depth : Nat) (lexemes : List Lexeme) :
    (p.read sub depth lexemes).Names (fun node texts => node.variableUses = texts) lexemes := by
  obtain ⟨hkind, hitems, slot, hmem, hslot⟩ := exists_slot_of_isOf hp
  have hstart : Draft.Has slot ⟨p.rule.start, []⟩ [] := ⟨rfl, List.forall_mem_nil _⟩
  exact (readItems_names hsub hitems hslot hstart depth p.kind lexemes).map
    fun draft texts hdraft => hdraft.finish hkind hmem

/-- The lexemes of a variable are its dollar sign and its name. -/
theorem Production.read_variableUse_names (sub : Goal → List Lexeme → Outcome Node) (depth : Nat)
    {dollar : Lexeme} (hdollar : dollar.token = .punct .dollar) (after : List Lexeme) :
    ((of .variableUse).read sub depth (dollar :: after)).Names
      (fun node texts => node.variableUses = texts) (dollar :: after) := by
  rw [read_variableUse sub depth hdollar]
  unfold Part.read.readName
  split
  · next text span comments rest =>
    refine ⟨[dollar, ⟨.name text, span, comments⟩], [text], rfl, .use hdollar rfl .nil, ?_⟩
    have hempty : Draft.Has .name ⟨.none, []⟩ [] := ⟨rfl, List.forall_mem_nil _⟩
    have hquiet := ((hempty.addComments .comments dollar.comments).addComments .comments
      comments).addName .name text
    have hnone (comments : List Comment) : comments.find? (fun _ => false) = none :=
      List.find?_eq_none.2 fun _ _ => Bool.false_ne_true
    simp only [Draft.finish]
    rw [Node.variableUses_variableUse, Node.usesIn_arrange (by decide) hquiet.elsewhere,
      hquiet.uses]
    simp [Node.nameIn?, Node.inSlot?, Node.inSlot, Node.children, Node.arrange, Kind.fields, Draft.add,
      Draft.addComments, Node.ofComments, Field.comments, Field.name, Field.list, Field.one,
      List.filter_filter, Node.text, Node.atom, Node.ofName, Function.comp_def, hnone]
  · trivial

/-- The lexemes that a reader of the general family takes name the variables of the node, whatever
depth it is given. -/
theorem Goal.read_names (depth : Nat) {goal : Goal} (hgoal : goal.isOf .general = true)
    (lexemes : List Lexeme) :
    (goal.read depth lexemes).Names (fun node texts => node.variableUses = texts) lexemes := by
  induction depth generalizing goal lexemes with
  | zero => trivial
  | succ depth ih =>
    have hread {p : Production} (hp : p.isOf .general = true) :
        (p.read (Goal.read depth) depth lexemes).Names (fun node texts => node.variableUses = texts)
          lexemes :=
      Production.read_names (fun goal h => @ih goal h) hp depth lexemes
    cases goal with
    | production p => exact hread (Bool.or_eq_true_iff.2 (.inr hgoal))
    | value family =>
      obtain rfl : family = .general := of_decide_eq_true hgoal
      by_cases hdollar : firstToken lexemes = some (.punct .dollar)
      · cases lexemes with
        | nil => cases hdollar
        | cons dollar after =>
          obtain hdollar : dollar.token = .punct .dollar := Option.some.inj hdollar
          rw [Goal.read_value_dollar depth hdollar]
          exact Production.read_variableUse_names _ depth hdollar after
      · rw [Goal.read, choose]
        rcases Choice.value_widen hdollar with ⟨kind, -, hkind, -, hgeneral⟩ |
          ⟨construct, expected, -, hgeneral⟩
        · rw [hgeneral]
          exact hread hkind
        · rw [hgeneral]
          trivial
    | _ => cases hgoal

end GraphQLTree
