import GraphQLTree.Proofs.Grammar.Printing

/-!
# Printed nodes are spaced

No token of a printed node runs into the next one (`Derives.joins`). What a token ends in and what it
starts with can be told from its class (`TokenClass.tails`, `TokenClass.lead`), so the rules say what
may meet: a part **joins** what stands before it if none of that runs into it (`Part.joins`), and what
stands behind it is one of few ends (`Part.tailsBehind`). All rules are checked to join
(`Production.joins`).
-/

namespace GraphQLTree

/-! ### Ends and starts of classes -/

/-- What the tokens of a class start with. -/
def TokenClass.lead : TokenClass → Lead
  | punct p => (Token.punct p).lead
  | string => .quote
  | _ => .wordy

/-- What the tokens of a class may end in. -/
def TokenClass.tails : TokenClass → List Tail
  | punct _ => [.firm]
  | string => [.quoted, .firm]
  | other => [.firm]
  | _ => [.loose]

theorem Token.lead_eq (token : Token) : token.lead = token.toClass.lead := by
  cases token with
  | name text =>
    have hname := TokenClass.isName_ofName text
    rw [toClass]
    cases hc : TokenClass.ofName text <;> first | rfl | (rw [hc] at hname; cases hname)
  | _ => rfl

theorem Token.tail_mem (token : Token) : token.tail ∈ token.toClass.tails := by
  cases token with
  | name text =>
    have hname := TokenClass.isName_ofName text
    rw [toClass]
    cases hc : TokenClass.ofName text <;>
      first | exact List.mem_singleton_self _ | (rw [hc] at hname; cases hname)
  | _ => simp [toClass, TokenClass.tails, tail]

/-- What the text of a goal may start with. -/
def Goal.leads (goal : Goal) : List Lead :=
  goal.starts.map TokenClass.lead

/-- What the text of a goal may end in: only of strings is it known that no name runs into it. -/
def Goal.tails (goal : Goal) : List Tail :=
  if goal = .kind .stringValue then [.quoted, .firm] else [.firm, .quoted, .loose]

/-- Whether any of some starts may directly follow any of some ends. -/
def Tail.admitAll (tails : List Tail) (leads : List Lead) : Bool :=
  tails.all fun tail => leads.all tail.admits

/-! ### Joining pieces -/

namespace Piece

/-- Whether no token runs into the next one when pieces stand behind one of some ends, and they end in
one of others. -/
def Joins (style : Style) (tails tails' : List Tail) (pieces : List Piece) : Prop :=
  ∀ edge : Edge, edge.tail ∈ tails → Spaced edge (styled style pieces) ∧
    (edgeBehind edge (styled style pieces)).tail ∈ tails'

namespace Joins

variable {style : Style} {as bs cs : List Tail} {a b : List Piece}

theorem nil : Joins style as as [] :=
  fun _ h => ⟨trivial, h⟩

theorem append (ha : Joins style as bs a) (hb : Joins style bs cs b) : Joins style as cs (a ++ b) := by
  intro edge hedge
  obtain ⟨hspaced, htail⟩ := ha edge hedge
  obtain ⟨hspaced', htail'⟩ := hb _ htail
  rw [styled_append]
  refine ⟨spaced_append.2 ⟨hspaced, hspaced'⟩, ?_⟩
  rwa [edgeBehind, List.foldl_append]

theorem mono {as' bs' : List Tail} (h : Joins style as bs a) (has : as' ⊆ as) (hbs : bs ⊆ bs') :
    Joins style as' bs' a := by
  intro edge hedge
  obtain ⟨hspaced, htail⟩ := h edge (has hedge)
  exact ⟨hspaced, hbs htail⟩

/-- A token joins ends that admit it. -/
theorem token {t : Token} (h : Tail.admitAll as [t.lead] = true) :
    Joins style as t.toClass.tails [.token t] := by
  intro edge hedge
  refine ⟨⟨?_, trivial⟩, t.tail_mem⟩
  have hadmits := List.all_eq_true.1 h edge.tail hedge
  exact List.all_eq_true.1 hadmits t.lead (List.mem_singleton_self _)

theorem soft : Joins style as as [.soft] :=
  fun _ h => ⟨⟨trivial, trivial⟩, h⟩

theorem hard : Joins style as [.firm] [.hard] :=
  fun _ _ => ⟨⟨trivial, trivial⟩, List.mem_singleton_self _⟩

theorem comma : Joins style as [.firm] [.comma] :=
  fun _ _ => ⟨⟨trivial, trivial⟩, List.mem_singleton_self _⟩

/-- A line break in pretty text only. -/
theorem lines : Joins style as as [.lines 0 1] :=
  fun _ h => ⟨⟨trivial, trivial⟩, h⟩

/-- Comments on lines of their own change nothing. -/
theorem leading (comments : List Comment) : Joins style as as (leadingPieces comments) := by
  induction comments with
  | nil => exact nil
  | cons comment comments ih =>
    have hone : Joins style as as [.leading comment.text] := by
      intro edge hedge
      cases hkept : style.comments with
      | true => simpa [styled, styled?, hkept, Spaced, Fits, edgeBehind, next] using hedge
      | false => simpa [styled, styled?, hkept, Spaced, edgeBehind] using hedge
    exact hone.append ih

/-- A comment behind a token changes nothing. -/
theorem trailing {t : Token} (h : Joins style as bs (a ++ [.token t])) (text : String) :
    Joins style as bs (a ++ [.token t] ++ [.trailing text]) := by
  intro edge hedge
  obtain ⟨hspaced, htail⟩ := h edge hedge
  rw [styled_append]
  have htoken : styled style (a ++ [.token t]) = styled style a ++ [.token t] := by
    rw [styled_append]
    rfl
  cases hkept : style.comments with
  | false =>
    rw [styled_trailing_eq_nil hkept, List.append_nil]
    exact ⟨hspaced, htail⟩
  | true =>
    rw [styled_trailing hkept]
    refine ⟨spaced_append.2 ⟨hspaced, ?_, trivial⟩, ?_⟩
    · rw [htoken, edgeBehind, List.foldl_append]
      rfl
    · rw [edgeBehind, List.foldl_append]
      exact htail

/-- Comments around pieces change nothing. -/
theorem around (h : Joins style as bs a) {comments : List Comment} {own : Bool}
    (hlast : own = true → comments ≠ [] → ∃ before t, a = before ++ [.token t]) :
    Joins style as bs (around comments a own) := by
  rcases around_cases comments a own with ⟨-, he⟩ | ⟨before, text, rfl, rfl, he⟩
  · rw [he]
    exact (leading comments).append h
  · obtain ⟨init, t, rfl⟩ := hlast rfl (by simp)
    rw [he, ← List.append_assoc]
    refine trailing ?_ text
    rw [List.append_assoc]
    exact (leading before).append h

end Joins

end Piece

/-! ### Joining parts -/

/-- What may stand behind a part that stands behind one of some ends. -/
def Part.tailsBehind (tails : List Tail) : Part → List Tail
  | gap .soft => tails
  | gap .hard => [.firm]
  | child _ goal => goal.tails
  | opened _ _ goal => goal.tails
  | listed _ goal _ _ => tails ++ goal.tails
  | repeated _ goal _ => tails ++ goal.tails
  | separated _ goal _ => goal.tails
  | juxtaposed _ => tails
  | demand _ => tails
  | part => (part.starts Goal.starts).flatMap TokenClass.tails

/-- Whether a part may stand behind some ends. -/
def Part.joins (tails : List Tail) : Part → Bool
  | spacedName _ => true
  | repeated _ goal _ => Tail.admitAll (tails ++ goal.tails) goal.leads
  | separated _ goal delimiter =>
    Tail.admitAll tails goal.leads && Tail.admitAll goal.tails [(Token.punct delimiter).lead]
  | part => Tail.admitAll tails ((part.starts Goal.starts).map TokenClass.lead)

/-- What may stand behind parts, and whether each of them may stand where it does. -/
def tailsBehindParts (tails : List Tail) (parts : List Part) : List Tail :=
  parts.foldl Part.tailsBehind tails

def joinsParts : List Tail → List Part → Bool
  | _, [] => true
  | tails, part :: parts => part.joins tails && joinsParts (part.tailsBehind tails) parts

/-- What may stand behind an item that stands behind one of some ends. -/
def Item.tailsBehind (tails : List Tail) : Item → List Tail
  | part p => p.tailsBehind tails
  | group _ _ parts => tails ++ tailsBehindParts tails parts

/-- Whether an item may stand behind some ends. -/
def Item.joins (tails : List Tail) : Item → Bool
  | part p => p.joins tails
  | group _ _ parts => joinsParts tails parts

/-- What may stand behind items. -/
def tailsBehindItems (tails : List Tail) (items : List Item) : List Tail :=
  items.foldl Item.tailsBehind tails

/-- Whether each of some items may stand where it does. -/
def joinsItems : List Tail → List Item → Bool
  | _, [] => true
  | tails, item :: items => item.joins tails && joinsItems (item.tailsBehind tails) items

/-! ### Elements join -/

/-- Nothing runs into a firm end. -/
theorem Tail.admitAll_firm (leads : List Lead) : admitAll [.firm] leads = true := by
  simp [admitAll, admits]

/-- Whether the text of a child joins all that admits its goal. -/
def Element.Joins (style : Style) : Element → Prop
  | child _ goal c => ∀ tails, Tail.admitAll tails goal.leads = true →
    Piece.Joins style tails goal.tails c.pieces
  | _ => True

section Elements

variable {style : Style}

/-- An own token joins what admits its class, with or without comments around it. -/
theorem Element.joins_own {tails : List Tail} {slot : Slot} {word : Word} {gift : Gift}
    {classes : List TokenClass} (hclass : word.token.toClass ∈ classes)
    (h : Tail.admitAll tails (classes.map TokenClass.lead) = true) :
    Piece.Joins style tails (classes.flatMap TokenClass.tails)
      (Elements.pieces [.own slot word false gift]) := by
  have hadmits : Tail.admitAll tails [word.token.lead] = true := by
    refine List.all_eq_true.2 fun tail htail => ?_
    have htail := List.all_eq_true.1 h tail htail
    rw [Token.lead_eq]
    simpa using List.all_eq_true.1 htail _ (List.mem_map_of_mem hclass)
  have htoken : Piece.Joins style tails (classes.flatMap TokenClass.tails) [.token word.token] :=
    (Piece.Joins.token hadmits).mono (List.Subset.refl _)
      fun tail htail => List.mem_flatMap.2 ⟨_, hclass, htail⟩
  have haround : Piece.Joins style tails (classes.flatMap TokenClass.tails)
      (around word.comments [.token word.token] true) :=
    htoken.around fun _ _ => ⟨[], word.token, rfl⟩
  rw [Elements.pieces_cons, Elements.pieces_nil, List.append_nil]
  cases slot <;> first | exact htoken | exact haround

section Children

variable {slot : Slot} {goal : Goal} {children : List Child}
  (hchildren : ∀ c ∈ children, (Element.child slot goal c).Joins style)
include hchildren

/-- The items of a list join. -/
theorem Element.joins_listed (padded : Bool) {tails : List Tail}
    (h : Tail.admitAll tails goal.leads = true) :
    Piece.Joins style tails (tails ++ goal.tails)
      (Elements.pieces (Element.listed slot goal padded children)) := by
  have htail (children : List Child)
      (hchildren : ∀ c ∈ children, (Element.child slot goal c).Joins style) :
      Piece.Joins style goal.tails goal.tails
        (Elements.pieces (Element.listedTail slot goal children)) := by
    induction children with
    | nil => exact .nil
    | cons c children ih =>
      have hc := hchildren c List.mem_cons_self [.firm] (Tail.admitAll_firm _)
      rw [Element.listedTail, List.flatMap_cons, Elements.pieces_append]
      refine .append ?_ (ih fun d hd => hchildren d (List.mem_cons_of_mem _ hd))
      simpa using Piece.Joins.comma.append hc
  have hpadding (tails : List Tail) : Piece.Joins style tails tails
      (Elements.pieces (if padded then [.space .soft] else [])) := by
    cases padded with
    | true => exact .soft
    | false => exact .nil
  cases children with
  | nil => exact Piece.Joins.nil.mono (List.Subset.refl _) (List.subset_append_left _ _)
  | cons c children =>
    have hc := hchildren c List.mem_cons_self tails h
    have hrest := htail children fun d hd => hchildren d (List.mem_cons_of_mem _ hd)
    rw [Element.listed, Elements.pieces_append, Elements.pieces_append, Elements.pieces_cons]
    refine .append ((hpadding tails).append (hc.append hrest)) ?_
    exact (hpadding goal.tails).mono (List.Subset.refl _) (List.subset_append_right _ _)

/-- Children with a space before each join. -/
theorem Element.joins_repeated {tails : List Tail}
    (h : Tail.admitAll (tails ++ goal.tails) goal.leads = true) :
    Piece.Joins style (tails ++ goal.tails) (tails ++ goal.tails)
      (Elements.pieces (Element.repeated slot goal children)) := by
  induction children with
  | nil => exact .nil
  | cons c children ih =>
    have hc := hchildren c List.mem_cons_self _ h
    rw [Element.repeated, List.flatMap_cons, Elements.pieces_append]
    refine .append ?_ (ih fun d hd => hchildren d (List.mem_cons_of_mem _ hd))
    have hone := Piece.Joins.soft.append (hc.mono (List.Subset.refl _) (List.subset_append_right tails _))
    simpa using hone

end Children

/-- Children with delimiters between them join. -/
theorem Element.joins_separated {slot : Slot} {goal : Goal} {delimiter : Punctuator} {first : Child}
    {others : List (Word × Child)} (htokens : ∀ next ∈ others, next.1.token = .punct delimiter)
    (hchildren : ∀ element ∈ Element.separated slot goal first others, element.Joins style)
    {tails : List Tail} (h : (Part.separated slot goal delimiter).joins tails = true) :
    Piece.Joins style tails goal.tails
      (Elements.pieces (Element.separated slot goal first others)) := by
  obtain ⟨hfirst, hdelimiter⟩ := Bool.and_eq_true_iff.1 h
  have hchild {c : Child} (hc : c ∈ first :: others.map Prod.snd) :
      (Element.child slot goal c).Joins style := hchildren _ (Element.mem_separated slot goal hc)
  -- A child and a delimiter take turns: the delimiter joins what ends as a child does, and
  -- everything joins a delimiter.
  have htail : Piece.Joins style goal.tails goal.tails (Elements.pieces
      (others.flatMap fun next => Element.delimited slot goal next.1 next.2)) := by
    have hothers : ∀ next ∈ others, (Element.child slot goal next.2).Joins style :=
      fun next hn => hchild (List.mem_cons_of_mem _ (List.mem_map_of_mem hn))
    clear hchildren hchild
    induction others with
    | nil => exact .nil
    | cons next others ih =>
      have htoken := htokens next List.mem_cons_self
      have hlead : Tail.admitAll goal.tails ([next.1.token.toClass].map TokenClass.lead) = true := by
        rw [htoken]
        exact hdelimiter
      have hbehind : [next.1.token.toClass].flatMap TokenClass.tails = [.firm] := by
        rw [htoken]
        rfl
      have hown : Piece.Joins style goal.tails ([next.1.token.toClass].flatMap TokenClass.tails)
          (Elements.pieces [.own .comments next.1 false .nothing]) :=
        Element.joins_own (List.mem_singleton_self _) hlead
      have hc := hothers next List.mem_cons_self [.firm] (Tail.admitAll_firm _)
      rw [hbehind] at hown
      rw [List.flatMap_cons, Elements.pieces_append]
      refine .append ?_ (ih (fun n hn => htokens n (List.mem_cons_of_mem _ hn))
        fun n hn => hothers n (List.mem_cons_of_mem _ hn))
      have hone := Piece.Joins.soft.append (hown.append (Piece.Joins.soft.append hc))
      simpa [Element.delimited] using hone
  rw [Element.separated, Elements.pieces_cons]
  exact (hchild List.mem_cons_self tails hfirst).append htail

/-- What a part spells joins. -/
theorem Part.Spells.joins {part : Part} {elements : List Element}
    (hspells : part.Spells (Elements.shapes elements))
    (hchildren : ∀ element ∈ elements, element.Joins style) {tails : List Tail}
    (h : part.joins tails = true) :
    Piece.Joins style tails (part.tailsBehind tails) (Elements.pieces elements) := by
  have hstart := hspells.startIn
  generalize hshapes : Elements.shapes elements = shapes at hspells
  -- Own tokens join what admits the classes of the part; children and lists bring their own lemmas.
  cases hspells with
  | gap g =>
    obtain rfl := Elements.eq_space_of_shapes hshapes
    cases g with
    | soft => exact .soft
    | hard => exact .hard
  | punct p =>
    obtain ⟨comments, rfl⟩ := Elements.eq_own_of_shapes hshapes
    exact Element.joins_own hstart h
  | bracket p slot =>
    obtain ⟨comments, rfl⟩ := Elements.eq_own_of_shapes hshapes
    exact Element.joins_own hstart h
  | keyword k =>
    obtain ⟨comments, rfl⟩ := Elements.eq_own_of_shapes hshapes
    exact Element.joins_own hstart h
  | name slot rule text hrefuses =>
    obtain ⟨comments, rfl⟩ := Elements.eq_own_of_shapes hshapes
    exact Element.joins_own hstart h
  | spacedName slot text =>
    obtain ⟨comments, rfl⟩ := Elements.eq_hard_own_of_shapes hshapes
    rw [Elements.pieces_append]
    exact Piece.Joins.hard.append (Element.joins_own hstart (Tail.admitAll_firm _))
  | literal l token atom hread =>
    obtain ⟨comments, rfl⟩ := Elements.eq_own_of_shapes hshapes
    exact Element.joins_own hstart h
  | child slot goal =>
    obtain ⟨c, rfl⟩ := Elements.eq_child_of_shapes hshapes
    rw [Elements.pieces_cons, Elements.pieces_nil, List.append_nil]
    exact hchildren _ List.mem_cons_self tails h
  | opened p slot goal =>
    obtain ⟨c, rfl⟩ := Elements.eq_child_of_shapes hshapes
    rw [Elements.pieces_cons, Elements.pieces_nil, List.append_nil]
    exact hchildren _ List.mem_cons_self tails h
  | listed slot goal close allowEmpty n hempty =>
    obtain ⟨children, rfl, -⟩ := Elements.exists_listed_of_shapes hshapes
    exact Element.joins_listed (fun c hc => hchildren _ (Element.mem_listed slot goal _ hc)) _ h
  | repeated slot goal start n =>
    obtain ⟨children, rfl, -⟩ := Elements.exists_repeated_of_shapes hshapes
    have hrepeated := Element.joins_repeated
      (fun c hc => hchildren _ (Element.mem_repeated slot goal hc)) h
    exact hrepeated.mono (List.subset_append_left _ _) (List.Subset.refl _)
  | separated slot goal delimiter n =>
    obtain ⟨first, others, rfl, -, htokens⟩ := Elements.exists_separated_of_shapes hshapes
    exact Element.joins_separated htokens hchildren h
  | spared slot goal delimiter n =>
    obtain ⟨a, b, rfl, ha, hb⟩ := Elements.exists_append_of_shapes (a := [.spare delimiter]) hshapes
    obtain ⟨comments, rfl⟩ := Elements.eq_own_of_shapes ha
    obtain ⟨first, others, rfl, -, htokens⟩ := Elements.exists_separated_of_shapes hb
    exact Element.joins_separated htokens (fun e he => hchildren e (List.mem_append_right _ he)) h
  | demand p =>
    obtain rfl := List.map_eq_nil_iff.1 hshapes
    exact .nil

/-- What parts spell joins. -/
theorem SpellParts.joins {parts : List Part} {elements : List Element}
    (hspells : SpellParts parts (Elements.shapes elements))
    (hchildren : ∀ element ∈ elements, element.Joins style) {tails : List Tail}
    (h : joinsParts tails parts = true) :
    Piece.Joins style tails (tailsBehindParts tails parts) (Elements.pieces elements) := by
  induction parts generalizing elements tails with
  | nil =>
    obtain rfl := List.map_eq_nil_iff.1 hspells.eq_nil
    exact .nil
  | cons part parts ih =>
    obtain ⟨es, fs, rfl, ha, hb⟩ := hspells.exists_split
    obtain ⟨hpart, hparts⟩ := Bool.and_eq_true_iff.1 h
    rw [Elements.pieces_append]
    exact (ha.joins (fun e he => hchildren e (List.mem_append_left _ he)) hpart).append
      (ih hb (fun e he => hchildren e (List.mem_append_right _ he)) hparts)

/-- What items spell joins. -/
theorem SpellItems.joins {items : List Item} {elements : List Element}
    (hspells : SpellItems items (Elements.shapes elements))
    (hchildren : ∀ element ∈ elements, element.Joins style) {tails : List Tail}
    (h : joinsItems tails items = true) :
    Piece.Joins style tails (tailsBehindItems tails items) (Elements.pieces elements) := by
  induction items generalizing elements tails with
  | nil =>
    obtain rfl := List.map_eq_nil_iff.1 hspells.eq_nil
    exact .nil
  | cons item items ih =>
    obtain ⟨es, fs, rfl, ha, hb⟩ := hspells.exists_split
    obtain ⟨hitem, hitems⟩ := Bool.and_eq_true_iff.1 h
    have hes : ∀ element ∈ es, element.Joins style :=
      fun e he => hchildren e (List.mem_append_left _ he)
    rw [Elements.pieces_append]
    refine .append ?_ (ih hb (fun e he => hchildren e (List.mem_append_right _ he)) hitems)
    cases item with
    | part p => exact ha.of_part.joins hes hitem
    | group guard presence parts =>
      rcases ha.of_group with hnil | ha
      · obtain rfl := List.map_eq_nil_iff.1 hnil
        exact Piece.Joins.nil.mono (List.Subset.refl _) (List.subset_append_left _ _)
      · exact (ha.joins hes hitem).mono (List.Subset.refl _) (List.subset_append_right _ _)

end Elements

/-! ### Nodes join -/

/-- The ends that what some classes start with may directly follow. -/
def TokenClass.tailsBefore (classes : List TokenClass) : List Tail :=
  [.firm, .quoted, .loose].filter fun tail => classes.all fun c => tail.admits c.lead

theorem Tail.subset_tailsBefore {tails : List Tail} {goal : Goal}
    (h : admitAll tails goal.leads = true) {classes : List TokenClass}
    (hclasses : classes ⊆ goal.starts) : tails ⊆ TokenClass.tailsBefore classes := by
  intro tail htail
  refine List.mem_filter.2 ⟨by cases tail <;> decide, List.all_eq_true.2 fun c hc => ?_⟩
  exact List.all_eq_true.1 (List.all_eq_true.1 h tail htail) _
    (List.mem_map_of_mem (hclasses hc))

/-- What admits a goal admits one that starts with less. -/
theorem Tail.admitAll_of_starts {tails : List Tail} {goal goal' : Goal}
    (h : admitAll tails goal.leads = true) (hstarts : goal'.starts ⊆ goal.starts) :
    admitAll tails goal'.leads = true := by
  refine List.all_eq_true.2 fun tail htail => List.all_eq_true.2 fun lead hlead => ?_
  obtain ⟨t, ht, rfl⟩ := List.mem_map.1 hlead
  exact List.all_eq_true.1 (List.all_eq_true.1 h tail htail) _ (List.mem_map_of_mem (hstarts ht))

namespace Production

/-- The items of a rule may stand where they do, behind all that admits what they start with and
behind a description. -/
theorem joins {p : Production} (hp : p.isReadable = true) :
    joinsItems (TokenClass.tailsBefore (startsOfItems Goal.starts p.items)) p.rule.items = true ∧
      (p.rule.described = true →
        joinsItems (Goal.kind .stringValue).tails p.rule.items = true) := by
  have hcheck := check (fun p => !p.isReadable ||
    joinsItems (TokenClass.tailsBefore (startsOfItems Goal.starts p.items)) p.rule.items &&
      (!p.rule.described || joinsItems (Goal.kind .stringValue).tails p.rule.items))
    (by decide) p
  simp only [hp, Bool.not_true, Bool.false_or, Bool.and_eq_true] at hcheck
  exact ⟨hcheck.1, fun hd => by simpa [hd] using hcheck.2⟩

end Production

/-- What the text of a goal's production ends in, the text of the goal may end in. -/
theorem Goal.tails_subset {goal : Goal} {p : Production} (h : p ∈ goal.productions) :
    tailsBehindItems (TokenClass.tailsBefore (startsOfItems Goal.starts p.items)) p.rule.items ⊆
      goal.tails ∧ (p.rule.described = true → ∀ tails : List Tail, tails ⊆ goal.tails) := by
  rw [tails]
  split
  · next hgoal =>
    subst hgoal
    obtain rfl := List.mem_singleton.1 h
    exact ⟨by decide, fun hd => by cases hd⟩
  · exact ⟨fun tail _ => by cases tail <;> decide, fun _ _ tail _ => by cases tail <;> decide⟩

/-- The text of a node joins what admits its goal. -/
theorem Derives.joins {goal : Goal} {marks : List Mark} {pieces : List Piece} {node : Node}
    (h : Derives goal marks pieces node) (style : Style) {tails : List Tail}
    (htails : Tail.admitAll tails goal.leads = true) :
    Piece.Joins style tails goal.tails pieces := by
  induction h generalizing tails with
  | @production goal p description elements hgoal hreadable hdescribed hspells hdemand hquery
      hdescription hchildren ihdescription ihchildren =>
    have hjoins : ∀ element ∈ elements, element.Joins style := by
      intro element hmem
      cases element with
      | child slot subgoal c => exact fun tails htails => ihchildren slot subgoal c hmem htails
      | _ => trivial
    have hlast := Production.exists_last hreadable hspells
    have hstarts := Production.starts_subset hgoal
    cases description with
    | none =>
      have hbody := (hspells.joins hjoins (Production.joins hreadable).1).around hlast
      exact hbody.mono (Tail.subset_tailsBefore htails hstarts) (Goal.tails_subset hgoal).1
    | some c =>
      have hdescr := hdescribed rfl
      -- What comes first is the description, and the node admits it as it may start with a string.
      have hstring := Tail.admitAll_of_starts htails
        fun t ht => hstarts (p.mem_starts_description hdescr ht)
      have hbody := (hspells.joins hjoins ((Production.joins hreadable).2 hdescr)).around hlast
      have hc := (ihdescription c rfl hstring).append Piece.Joins.lines
      exact hc.append (hbody.mono (List.Subset.refl _) ((Goal.tails_subset hgoal).2 hdescr _))
  | @query goal c comments hgoal hshorthand hchild ih =>
    have hstring : goal ≠ .kind .stringValue := by
      rintro rfl
      cases List.mem_singleton.1 hgoal
    have hstarts : (Goal.kind .selectionSet).starts ⊆ goal.starts :=
      List.Subset.trans (by decide) (Production.starts_subset hshorthand)
    have hc := ih (Tail.admitAll_of_starts htails hstarts)
    refine (Piece.Joins.leading comments).append (hc.mono (List.Subset.refl _) ?_)
    rw [Goal.tails, Goal.tails, if_neg hstring]
    exact fun tail _ => by cases tail <;> decide
  | @nonNull marks pieces node comments h hkind ih =>
    -- The mark joins every type.
    have hmark : Piece.Joins style Goal.type.tails [.firm] [.token (.punct .exclamation)] :=
      Piece.Joins.token (by decide)
    have haround : Piece.Joins style Goal.type.tails [.firm]
        (around comments [.token (.punct .exclamation)] true) :=
      hmark.around fun _ _ => ⟨[], _, rfl⟩
    exact (ih htails).append (haround.mono (List.Subset.refl _) (by decide))

/-- The pieces of a node are spaced in every style. -/
theorem Derives.spaced {goal : Goal} {marks : List Mark} {pieces : List Piece} {node : Node}
    (h : Derives goal marks pieces node) (style : Style) :
    Piece.Spaced .clear (Piece.styled style pieces) :=
  (h.joins style (Tail.admitAll_firm _) .clear (List.mem_singleton_self _)).1

end GraphQLTree
