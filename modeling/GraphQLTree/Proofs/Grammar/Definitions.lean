import Mathlib.Data.List.Chain
import GraphQLTree.Grammar.Parser
import GraphQLTree.Proofs.Grammar.Completeness
import GraphQLTree.Proofs.Grammar.Depth
import GraphQLTree.Proofs.Grammar.Slots

/-!
# Definitions one after the other

The definitions of a document stand next to each other with nothing in between, so a reader has to see
from the next token whether a definition goes on. Only a brace can both go on a definition and start
another one: a selection set alone is a query, and some definitions may have a **body** in braces. A
definition is **open** if it could have a body but has none. A reader takes a brace behind an open
definition for its body, so the definitions that are read in a row are those whose open ones have no
brace behind them (`readDefinitions_complete`, `readDefinitions_sound`).
-/

namespace GraphQLTree

/-- The slot of the body in braces that nodes of a kind may end in. -/
def Kind.bodySlot? : Kind → Option Slot
  | schema .extension => some .operationTypes
  | objectType _ => some .fields
  | interfaceType _ => some .fields
  | enumType _ => some .values
  | inputObjectType _ => some .fields
  | _ => none

/-- Whether a definition could have a body in braces but has none. -/
def Node.isOpen (node : Node) : Bool :=
  node.kind.bodySlot?.any fun slot => (node.inSlot slot).isEmpty

/-! ### A brace behind a definition -/

/-- Whether an item is a group that a brace starts and that fills a slot. -/
def Item.isBody (slot : Slot) : Item → Bool
  | group guard _ parts => guard = .punct .braceOpen && parts.any fun part => part.gives? = some slot
  | part _ => false

/-- Whether items end in a body, but for a demand. -/
def endsInBody (slot : Slot) : List Item → Bool
  | [] => false
  | item :: items =>
    (item.isBody slot && items.all fun item => item matches .part (.demand _)) ||
      endsInBody slot items

/-- The kinds that may have a body are those whose rules end in one. -/
theorem Production.endsInBody {p : Production} (hp : p ∈ Goal.definition.productions) {slot : Slot}
    (hslot : p.kind.bodySlot? = some slot) :
    GraphQLTree.endsInBody slot p.rule.items = true ∧ slot ∈ p.kind.slots := by
  have hcheck : (Goal.definition.productions.all fun p => p.kind.bodySlot?.all fun slot =>
      GraphQLTree.endsInBody slot p.rule.items && p.kind.slots.contains slot) = true := by
    decide
  have hp := List.all_eq_true.1 hcheck p hp
  rw [hslot, Option.all_some, Bool.and_eq_true] at hp
  exact ⟨hp.1, List.contains_iff_mem.1 hp.2⟩

/-- Nothing but a brace both goes on a definition and starts another one. -/
theorem Production.further_definition {p : Production} (hp : p ∈ Goal.definition.productions)
    {c : TokenClass} (hc : c ∈ furtherOfItems Goal.further p.rule.items)
    (hstart : c ∈ Goal.definition.starts) : c = .punct .braceOpen := by
  have hcheck : ∀ p ∈ Goal.definition.productions, ∀ c ∈ furtherOfItems Goal.further p.rule.items,
      c ∈ Goal.definition.starts → c = .punct .braceOpen := by
    decide
  exact hcheck p hp c hc hstart

/-- A brace goes on a definition only as its body. -/
theorem Production.further_brace {p : Production} (hp : p ∈ Goal.definition.productions)
    {item : Item} (hitem : item ∈ p.rule.items) :
    .punct .braceOpen ∉ item.furtherBehind ∧
      (.punct .braceOpen ∈ item.further Goal.further → ∃ slot, p.kind.bodySlot? = some slot ∧
        item.isBody slot = true ∧ .punct .braceOpen ∉ furtherOfParts Goal.further item.parts) := by
  have hcheck : (Goal.definition.productions.all fun p => p.rule.items.all fun item =>
      .punct .braceOpen ∉ item.furtherBehind &&
        (.punct .braceOpen ∉ item.further Goal.further || p.kind.bodySlot?.any fun slot =>
          item.isBody slot && .punct .braceOpen ∉ furtherOfParts Goal.further item.parts)) =
        true := by
    decide
  have hitem := List.all_eq_true.1 (List.all_eq_true.1 hcheck p hp) item hitem
  rw [Bool.and_eq_true, decide_eq_true_eq] at hitem
  refine ⟨hitem.1, fun hmem => ?_⟩
  obtain ⟨slot, hslot, hbody⟩ := (Option.any_eq_true _ _).1 (by simpa [hmem] using hitem.2)
  exact ⟨slot, hslot, by simpa using hbody⟩

/-! ### Reading is complete -/

/-- Where a body is there a brace doesn't look like more of the items. -/
private theorem SpellItems.before_brace {slot? : Option Slot} {items : List Item}
    (hitems : ∀ item ∈ items, item.isReadable = true)
    (hbrace : ∀ item ∈ items, .punct .braceOpen ∉ item.furtherBehind ∧
      (.punct .braceOpen ∈ item.further Goal.further → ∃ slot, slot? = some slot ∧
        item.isBody slot = true ∧ .punct .braceOpen ∉ furtherOfParts Goal.further item.parts))
    (hnodup : (slotsOfItems items).Nodup) {shapes : List Shape} (h : SpellItems items shapes)
    (hbody : ∀ slot ∈ slot?, slot ∈ slotsOfItems items → slot ∈ Shape.slots shapes)
    {rest : List Lexeme} (hrest : firstToken rest = some (.punct .braceOpen)) :
    SpellBefore rest items shapes := by
  have hclear {classes : List TokenClass} (hc : .punct .braceOpen ∉ classes) :
      Clear classes rest := by
    intro token htoken
    obtain rfl := Option.some.inj (hrest.symm.trans htoken)
    exact hc
  induction h with
  | nil => exact .nil
  | @cons item items a b ha hb ih =>
    obtain ⟨hbehind, hfurther⟩ := hbrace item List.mem_cons_self
    have hitem := hitems item List.mem_cons_self
    have htail := fun i hi => hitems i (List.mem_cons_of_mem item hi)
    have ha' : SpellItems [item] a := by simpa using SpellItems.cons ha .nil
    have hslotsa : Shape.slots a ⊆ item.slots := by
      have hsub := ha'.slots_subset (by simpa using hitem)
      simpa [slotsOfItems] using hsub
    have hslotsb := hb.slots_subset htail
    -- No slot is filled by two items.
    have hdisjoint := List.nodup_append.1 (show (item.slots ++ slotsOfItems items).Nodup from hnodup)
    have happend (slot : Slot) : slot ∈ Shape.slots (a ++ b) ↔
        slot ∈ Shape.slots a ∨ slot ∈ Shape.slots b := by
      rw [Shape.slots_append, List.mem_append]
    refine .cons ha (ih htail (fun i hi => hbrace i (List.mem_cons_of_mem _ hi)) hdisjoint.2.1
      fun slot hslot hmem => ?_) (fun _ => hclear fun hmem => ?_) fun _ => hclear hbehind
    · -- The body is one of the later items, so this one doesn't give it.
      have hmem' := hbody slot hslot (List.mem_append_right item.slots hmem)
      rcases (happend slot).1 hmem' with hmema | hmemb
      · exact absurd rfl (hdisjoint.2.2 slot (hslotsa hmema) slot hmem)
      · exact hmemb
    · -- A brace would be more of this item only if it is the body, which is there already.
      obtain ⟨slot, hslot, hisBody, hparts⟩ :=
        hfurther (item.furtherAs_subset Goal.further a hmem)
      cases item with
      | part p => cases hisBody
      | group guard presence parts =>
        rw [Item.isBody, Bool.and_eq_true] at hisBody
        obtain ⟨part, hpart, hgives⟩ := List.any_eq_true.1 hisBody.2
        have hmemitem : slot ∈ (Item.group guard presence parts).slots :=
          List.mem_flatMap.2 ⟨part, hpart, Part.mem_slots_of_gives (of_decide_eq_true hgives)⟩
        have hmem' := hbody slot hslot (List.mem_append_left (slotsOfItems items) hmemitem)
        have hmema : slot ∈ Shape.slots a := ((happend slot).1 hmem').resolve_right fun hmemb =>
          hdisjoint.2.2 slot hmemitem slot (hslotsb hmemb) rfl
        have hne : a.isEmpty = false := by
          cases a with
          | nil => cases hmema
          | cons shape a => rfl
        rw [Item.furtherAs, hne, if_neg (by simp)] at hmem
        exact hparts hmem

/-- The children of a node in a slot that its production's items fill. -/
theorem Production.isEmpty_inSlot {p : Production} (hp : p.isReadable = true)
    {description : Option Child} {elements : List Element}
    (hspells : SpellItems p.rule.items (Elements.shapes elements)) {slot : Slot}
    (hslot : slot ∈ p.kind.slots) (hcomments : slot.holdsComments = false)
    (hdescription : slot ≠ .description)
    (h : slot ∉ Shape.slots (Elements.shapes elements)) :
    (p.finish (descriptionElements description ++ elements)).inSlot slot = [] := by
  have hdesc : entriesIn slot (Elements.entries (descriptionElements description)) = [] := by
    cases description with
    | none => rfl
    | some c => simp [descriptionElements, entriesIn, Ne.symm hdescription]
  have hnil : (entriesIn slot (Elements.entries elements)).map Prod.fst = [] := by
    rw [Elements.slots_entriesIn (hspells.isTidy (Production.items_isReadable hp).2) hcomments]
    refine List.filter_eq_nil_iff.2 fun s hs hslot => h ?_
    rwa [← of_decide_eq_true hslot]
  have hentries : entriesIn slot (Node.arrange p.kind
      (Elements.entries (descriptionElements description ++ elements))) = [] := by
    rw [Node.entriesIn_arrange hslot, Elements.entries_append, entriesIn_append, hdesc,
      List.map_eq_nil_iff.1 hnil]
    rfl
  exact congrArg (List.map Prod.snd) hentries

/-- A reader finds a definition in front of the start of another one, unless the definition is open
and the other one starts with a brace. -/
theorem Derives.read_definition {marks : List Mark} {pieces : List Piece} {node : Node}
    (h : Derives .definition marks pieces node) {depth : Nat}
    (hdepth : 4 * (marks.length + 1) ≤ depth) {lexemes rest : List Lexeme}
    (hw : lexemes.map Lexeme.word = marks.map Mark.word)
    (hrest : rest = [] ∨ FirstIn Goal.definition.starts rest)
    (hopen : node.isOpen = true → firstToken rest ≠ some (.punct .braceOpen)) :
    Goal.definition.read depth (lexemes ++ rest) = .done node rest := by
  refine h.read_before (by simp) hdepth hw fun p description elements hp hreadable hspells hnode => ?_
  by_cases hbrace : firstToken rest = some (.punct .braceOpen)
  · refine hspells.before_brace (Production.items_isReadable hreadable).2
      (fun item hitem => Production.further_brace hp hitem) (Production.isOrderly hreadable).nodup_slots
      (fun slot hslot hmem => ?_) hbrace
    -- A definition that isn't open has its body.
    by_contra hnone
    refine hopen ?_ hbrace
    have hbodies : ∀ kind ∈ Kind.all, ∀ slot ∈ kind.bodySlot?,
        slot.holdsComments = false ∧ slot ≠ .description := by decide
    obtain ⟨hcomments, hdescription⟩ := hbodies p.kind p.kind.mem_all slot hslot
    have hempty : node.inSlot slot = [] := by
      rw [hnode]
      exact Production.isEmpty_inSlot hreadable hspells (Production.endsInBody hp hslot).2 hcomments
        hdescription hnone
    have hkind : node.kind = p.kind := by
      rw [hnode]
      rfl
    simp [Node.isOpen, hkind, Option.mem_def.1 hslot, hempty]
  · refine hspells.before fun token htoken hmem => ?_
    rcases hrest with rfl | ⟨token', htoken', hstart⟩
    · cases htoken
    · obtain rfl := Option.some.inj (htoken.symm.trans htoken')
      have hclass := Production.further_definition hp hmem hstart
      rw [Token.eq_punct_of_class hclass] at htoken
      exact hbrace htoken

/-- Definitions that can be read in a row: no open one stands in front of a brace. -/
def Child.Apart (a b : Child) : Prop :=
  a.node.isOpen = true → (b.marks.head?.map fun mark => mark.word.token) ≠ some (.punct .braceOpen)

/-- The lexemes of a derivation begin with the token of its first word. -/
theorem Derives.firstToken_eq {goal : Goal} {marks : List Mark} {pieces : List Piece} {node : Node}
    (h : Derives goal marks pieces node) {others : List Mark} {lexemes : List Lexeme}
    (hw : lexemes.map Lexeme.word = (marks ++ others).map Mark.word) :
    firstToken lexemes = marks.head?.map fun mark => mark.word.token := by
  obtain ⟨mark, marks, rfl, -⟩ := h.startIn
  obtain ⟨lexeme, l, rfl, hlexeme, -⟩ := List.map_eq_cons_iff.1 hw
  exact congrArg (fun word : Word => some word.token) hlexeme

/-- A reader finds definitions one after the other. -/
theorem readDefinitions_complete {children : List Child}
    (hd : ∀ c ∈ children, Derives .definition c.marks c.pieces c.node)
    (hchain : children.IsChain Child.Apart) {depth loops : Nat}
    (hdepth : 4 * ((children.flatMap Child.marks).length + 1) ≤ depth)
    (hloops : (children.flatMap Child.marks).length ≤ loops) {lexemes : List Lexeme}
    (hw : lexemes.map Lexeme.word = (children.flatMap Child.marks).map Mark.word) :
    readUntil (Goal.definition.read depth) List.isEmpty loops lexemes =
      .done (children.map Child.node) [] := by
  induction children generalizing loops lexemes with
  | nil =>
    obtain rfl : lexemes = [] := by simpa using hw
    unfold readUntil
    rfl
  | cons c children ih =>
    rw [List.flatMap_cons] at hw
    obtain ⟨l, m, rfl, hl, hm⟩ := exists_lexemes_append hw
    have hc := hd c List.mem_cons_self
    rw [List.flatMap_cons, List.length_append] at hdepth hloops
    have hpos := hc.length_pos
    cases loops with
    | zero => omega
    | succ loops =>
      have hstart := hc.startIn.firstIn hl m
      have hne : (l ++ m).isEmpty = false := by
        obtain ⟨token, htoken, -⟩ := hstart
        cases hlm : l ++ m with
        | nil => rw [hlm] at htoken; cases htoken
        | cons lexeme rest => rfl
      obtain ⟨happart, hchain⟩ := List.isChain_cons.1 hchain
      -- The definition isn't read on into the next one: behind it is nothing or the start of a
      -- definition, and no brace if it is open.
      have hread : Goal.definition.read depth (l ++ m) = .done c.node m := by
        refine hc.read_definition (by omega) hl ?_ fun hopen => ?_
        · cases children with
          | nil =>
            obtain rfl : m = [] := by simpa using hm
            exact .inl rfl
          | cons d children =>
            have hd := (hd d (by simp)).startIn.append (children.flatMap Child.marks)
            exact .inr (by simpa using hd.firstIn hm [])
        · cases children with
          | nil =>
            obtain rfl : m = [] := by simpa using hm
            simp [firstToken]
          | cons d children =>
            rw [(hd d (by simp)).firstToken_eq hm]
            exact happart d rfl hopen
      have hloops' : (children.flatMap Child.marks).length ≤ loops := by omega
      have htail := ih (fun d hd' => hd d (List.mem_cons_of_mem _ hd')) hchain (by omega) hloops' hm
      rw [readUntil, hne, if_neg (by simp), hread]
      simp only [Outcome.andThen, htail, Outcome.map]
      rfl

/-! ### Reading is sound -/

private theorem readItems_of_demands {sub : Goal → List Lexeme → Outcome Node} {depth : Nat}
    {kind : Kind} {items : List Item}
    (hitems : (items.all fun item => item matches .part (.demand _)) = true)
    {draft draft' : Draft} {lexemes rest : List Lexeme}
    (h : readItems sub depth kind items draft lexemes = .done draft' rest) :
    draft' = draft ∧ rest = lexemes := by
  induction items generalizing draft lexemes with
  | nil =>
    injection h with hd hr
    exact ⟨hd.symm, hr.symm⟩
  | cons item items ih =>
    rw [List.all_cons, Bool.and_eq_true] at hitems
    obtain ⟨d, l, hd, hl⟩ := Outcome.andThen_eq_done h
    obtain ⟨rfl, rfl⟩ := ih hitems.2 hl
    have hitem := hitems.1
    split at hitem
    · rw [Item.read, Part.read] at hd
      split at hd
      · injection hd with hd hr
        exact ⟨hd.symm, hr.symm⟩
      · cases hd
    · cases hitem

/-- A reader that leaves out a body leaves no brace behind. -/
private theorem readItems_of_endsInBody {sub : Goal → List Lexeme → Outcome Node}
    (hsub : ReadsSoundly sub) {depth : Nat} {kind : Kind} {slot : Slot}
    (hslot : slot.holdsComments = false) {items : List Item}
    (hreadable : ∀ item ∈ items, item.isReadable = true)
    (hitems : endsInBody slot items = true) {draft draft' : Draft} {lexemes rest : List Lexeme}
    (h : readItems sub depth kind items draft lexemes = .done draft' rest)
    (hempty : entriesIn slot draft'.entries = []) :
    firstToken rest ≠ some (.punct .braceOpen) := by
  induction items generalizing draft lexemes with
  | nil => cases hitems
  | cons item items ih =>
    obtain ⟨d, l, hd, hl⟩ := Outcome.andThen_eq_done h
    rw [endsInBody, Bool.or_eq_true, Bool.and_eq_true] at hitems
    rcases hitems with ⟨hbody, hdemands⟩ | hitems
    · obtain ⟨rfl, rfl⟩ := readItems_of_demands hdemands hl
      cases item with
      | part p => cases hbody
      | group guard presence parts =>
        rw [Item.isBody, Bool.and_eq_true, decide_eq_true_eq] at hbody
        obtain ⟨rfl, hgives⟩ := hbody
        obtain ⟨part, hpart, hgives⟩ := List.any_eq_true.1 hgives
        rw [Item.read] at hd
        split at hd
        · -- The body is there, so its slot isn't empty.
          have hparts : ∀ part ∈ parts, part.isReadable = true :=
            List.all_eq_true.1 (hreadable _ List.mem_cons_self)
          obtain ⟨elements, hspells, hrun⟩ := readParts_sound hsub hparts hd
          obtain ⟨a, ha, hsubset⟩ := hspells.exists_of_mem hpart
          have hmem : slot ∈ Shape.slots (Elements.shapes elements) := by
            obtain ⟨shape, hshape, hs⟩ := List.mem_filterMap.1 (ha.gives (of_decide_eq_true hgives))
            exact List.mem_filterMap.2 ⟨shape, hsubset hshape, hs⟩
          have hgroup : (Item.group (.punct .braceOpen) presence parts).Spells
              (Elements.shapes elements) := .take _ _ hspells
          have htidy := hgroup.isTidy (hreadable _ List.mem_cons_self)
          rw [hrun.entries, List.append_eq_nil_iff] at hempty
          have hslots := Elements.slots_entriesIn htidy hslot
          rw [hempty.2] at hslots
          exact absurd hslots.symm (List.ne_nil_of_mem (List.mem_filter.2 ⟨hmem, by simp⟩))
        · -- The body was left out because no brace was there.
          next hholds =>
          injection hd with _ hr
          intro hbrace
          refine hholds ?_
          rw [hr, Guard.holds, startsWith, hbrace]
          rfl
    · exact ih (fun i hi => hreadable i (List.mem_cons_of_mem _ hi)) hitems hl

/-- There is no brace behind an open definition that is read. -/
theorem Goal.read_definition_open {depth : Nat} {lexemes rest : List Lexeme} {node : Node}
    (h : Goal.definition.read depth lexemes = .done node rest) (hopen : node.isOpen = true) :
    firstToken rest ≠ some (.punct .braceOpen) := by
  cases depth with
  | zero => cases h
  | succ depth =>
    rw [Goal.read] at h
    split at h
    · cases h
    · next p hp =>
      have hmem := Goal.choose_mem hp
      have hreadable := Goal.isReadable_of_mem (by decide) hmem
      simp only [reduceCtorEq, if_false] at h
      obtain ⟨draft, hdraft, rfl⟩ := Outcome.map_eq_done h
      obtain ⟨slot, hslot, hempty⟩ := (Option.any_eq_true _ _).1 hopen
      obtain ⟨hends, hmemslots⟩ := Production.endsInBody hmem hslot
      have hbodies : ∀ kind ∈ Kind.all, ∀ slot ∈ kind.bodySlot?, slot.holdsComments = false := by
        decide
      have hends' : GraphQLTree.endsInBody slot p.items = true := by
        rw [Production.items]
        split
        · rw [GraphQLTree.endsInBody, hends, Bool.or_true]
        · exact hends
      refine readItems_of_endsInBody (Goal.read_sound depth)
        (hbodies p.kind p.kind.mem_all slot hslot) (p.isReadable_of_mem_items hreadable) hends'
        hdraft ?_
      have hnil := List.map_eq_nil_iff.1 (List.isEmpty_iff.1 hempty)
      rw [← Node.entriesIn_arrange hmemslots]
      exact hnil

/-- Definitions that are read one after the other have derivations and stand apart. -/
theorem readDefinitions_sound {depth loops : Nat} {lexemes rest : List Lexeme} {nodes : List Node}
    (h : readUntil (Goal.definition.read depth) List.isEmpty loops lexemes = .done nodes rest) :
    rest = [] ∧ ∃ children : List Child, children.map Child.node = nodes ∧
      lexemes.map Lexeme.word = (children.flatMap Child.marks).map Mark.word ∧
      (∀ c ∈ children, Derives .definition c.marks c.pieces c.node) ∧
      children.IsChain Child.Apart := by
  induction loops generalizing lexemes nodes with
  | zero =>
    rw [readUntil] at h
    split at h
    · next hempty =>
      obtain rfl := List.isEmpty_iff.1 hempty
      injection h with hn hr
      exact ⟨hr.symm, [], hn, rfl, by simp, .nil⟩
    · cases h
  | succ loops ih =>
    rw [readUntil] at h
    split at h
    · next hempty =>
      obtain rfl := List.isEmpty_iff.1 hempty
      injection h with hn hr
      exact ⟨hr.symm, [], hn, rfl, by simp, .nil⟩
    · obtain ⟨node, l, hnode, hl⟩ := Outcome.andThen_eq_done h
      obtain ⟨nodes, hnodes, rfl⟩ := Outcome.map_eq_done hl
      obtain ⟨hrest, children, rfl, hwords, hd, hchain⟩ := ih hnodes
      have hbrace := Goal.read_definition_open hnode
      obtain ⟨c, rfl, ⟨taken, rfl, htaken⟩, hc⟩ :=
        Goal.read_sound depth .definition _ _ _ (by decide) hnode
      refine ⟨hrest, c :: children, rfl, ?_, ?_, List.isChain_cons.2 ⟨fun d hdmem hopen => ?_, hchain⟩⟩
      · simp [htaken, hwords]
      · simpa [hc] using hd
      · -- The next definition starts where this one ends.
        obtain ⟨children, rfl⟩ := List.head?_eq_some_iff.1 hdmem
        rw [← (hd d List.mem_cons_self).firstToken_eq hwords]
        exact hbrace hopen

end GraphQLTree
