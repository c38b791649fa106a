import GraphQLTree.Proofs.Grammar.Gather
import GraphQLTree.Proofs.Grammar.Printing

/-!
# Tokens of derivations

The tokens of a derivation are **proper**, which means that they are neither invalid nor comments. When
they are scanned from a text they are known, and those that aren't sound are numbers that lack the
digits of their exponent, which a text can have only in front of characters that form no token
(`Derives.sound_iff`).
-/

namespace GraphQLTree

/-! ### Own tokens -/

/-- Whether an own token has a property. -/
def Shape.OwnToken (P : Token → Prop) : Shape → Prop
  | own _ token _ _ => P token
  | _ => True

section Own

variable {P : Token → Prop} (hpunct : ∀ p, P (.punct p)) (hname : ∀ text, P (.name text))
include hpunct hname

/-- What own tokens have in common, if literals have it. -/
theorem Part.Spells.ownToken {part : Part} {shapes : List Shape} (h : part.Spells shapes)
    (hliteral : ∀ l, part = .literal l → ∀ token atom, l.read? token = some atom → P token) :
    ∀ shape ∈ shapes, shape.OwnToken P := by
  have hlisted (slot : Slot) (goal : Goal) (padded : Bool) (n : Nat) :
      ∀ shape ∈ Shape.listed slot goal padded n, shape.OwnToken P := by
    cases n with
    | zero => simp [Shape.listed]
    | succ n =>
      have htimes : ∀ shape ∈ Shape.times [.space .comma, .child slot goal] n, shape.OwnToken P :=
        Shape.forall_times (by simp [Shape.OwnToken]) n
      have hpadding : ∀ shape ∈ (if padded then [Shape.space .soft] else []), shape.OwnToken P := by
        cases padded <;> simp [Shape.OwnToken]
      simp only [Shape.listed, List.forall_mem_append, List.forall_mem_cons]
      exact ⟨⟨hpadding, trivial, htimes⟩, hpadding⟩
  have hseparated (slot : Slot) (goal : Goal) (delimiter : Punctuator) (n : Nat) :
      ∀ shape ∈ Shape.separated slot goal delimiter n, shape.OwnToken P := by
    refine List.forall_mem_cons.2 ⟨trivial, Shape.forall_times ?_ n⟩
    simp [Shape.OwnToken, Shape.plain, hpunct]
  cases h with
  | listed slot goal close allowEmpty n h => exact hlisted slot goal _ n
  | repeated slot goal start n => exact Shape.forall_times (by simp [Shape.OwnToken]) n
  | separated slot goal delimiter n => exact hseparated slot goal delimiter n
  | spared slot goal delimiter n =>
    exact List.forall_mem_cons.2 ⟨hpunct delimiter, hseparated slot goal delimiter n⟩
  | literal l token atom h => simpa [Shape.OwnToken] using hliteral l rfl token atom h
  | _ => simp [Shape.OwnToken, Shape.plain, hpunct, hname]

theorem SpellParts.ownToken {parts : List Part} {shapes : List Shape} (h : SpellParts parts shapes)
    (hliteral : ∀ l, .literal l ∈ parts → ∀ token atom, l.read? token = some atom → P token) :
    ∀ shape ∈ shapes, shape.OwnToken P := by
  induction h with
  | nil => simp
  | cons ha hb ih =>
    refine List.forall_mem_append.2 ⟨?_, ih fun l hl => hliteral l (List.mem_cons_of_mem _ hl)⟩
    exact ha.ownToken hpunct hname fun l hl => hliteral l (hl ▸ List.mem_cons_self)

theorem SpellItems.ownToken {items : List Item} {shapes : List Shape} (h : SpellItems items shapes)
    (hliteral : ∀ l, .literal l ∈ items.flatMap Item.parts → ∀ token atom,
      l.read? token = some atom → P token) :
    ∀ shape ∈ shapes, shape.OwnToken P := by
  induction h with
  | nil => simp
  | @cons item items a b ha hb ih =>
    rw [List.flatMap_cons] at hliteral
    refine List.forall_mem_append.2 ⟨?_, ih fun l hl => hliteral l (List.mem_append_right _ hl)⟩
    have hitem := fun l hl => hliteral l (List.mem_append_left _ hl)
    cases ha with
    | part h => exact h.ownToken hpunct hname fun l hl => hitem l (hl ▸ List.mem_singleton_self _)
    | skip => simp
    | take _ _ h => exact h.ownToken hpunct hname hitem

end Own

/-! ### Proper tokens -/

/-- Whether a token is neither invalid nor a comment. -/
def Token.IsProper (token : Token) : Prop :=
  token ≠ .invalid ∧ token.isComment = false

theorem SpellItems.isProper {items : List Item} {shapes : List Shape}
    (h : SpellItems items shapes) : ∀ shape ∈ shapes, shape.OwnToken Token.IsProper := by
  refine h.ownToken (fun p => ⟨Token.noConfusion, rfl⟩) (fun text => ⟨Token.noConfusion, rfl⟩) ?_
  intro l _ token atom hread
  cases token with
  | invalid => cases l <;> cases hread
  | comment text => cases l <;> cases hread
  | _ => exact ⟨Token.noConfusion, rfl⟩

/-- The tokens of a derivation are proper. -/
theorem Derives.isProper {goal : Goal} {marks : List Mark} {pieces : List Piece} {node : Node}
    (h : Derives goal marks pieces node) : ∀ mark ∈ marks, mark.word.token.IsProper := by
  induction h with
  | @production goal p description elements hgoal hreadable hdescribed hspells hdemand hquery
      hdescription hchildren ihdescription ihchildren =>
    intro mark hmark
    obtain ⟨element, hmem, hmark⟩ := List.mem_flatMap.1 hmark
    rcases List.mem_append.1 hmem with hmem | hmem
    · cases element with
      | child slot subgoal c =>
        obtain ⟨-, -, hc⟩ := mem_descriptionElements hmem
        exact ihdescription c hc mark hmark
      | space piece => cases hmark
      | own slot word spare gift =>
        cases description with
        | none => cases hmem
        | some c => simp [descriptionElements] at hmem
    · cases element with
      | child slot subgoal c => exact ihchildren slot subgoal c hmem mark hmark
      | space piece => cases hmark
      | own slot word spare gift =>
        obtain rfl := List.mem_singleton.1 hmark
        exact hspells.isProper _ (List.mem_map_of_mem hmem)
  | @query goal c comments hgoal hshorthand hchild ih =>
    exact List.forall_mem_cons.2 ⟨⟨Token.noConfusion, rfl⟩, ih⟩
  | @nonNull marks pieces node comments h hkind ih =>
    exact List.forall_mem_append.2 ⟨ih, by simp [Token.IsProper, Token.isComment]⟩

/-! ### Known and sound words -/

/-- Whether the tokens of words are sound. -/
def Mark.Sound (marks : List Mark) : Prop :=
  ∀ mark ∈ marks, mark.word.token.Sound

/-- The first words of a text are known if they are proper, and sound if the text has no lexical
error. -/
theorem Mark.known_of_lexed {marks : List Mark} {ws : List Word}
    (hlexed : Word.Lexed (marks.map Mark.word ++ ws))
    (hproper : ∀ mark ∈ marks, mark.word.token.IsProper) :
    Mark.Known marks ∧ ((∀ word ∈ marks.map Mark.word ++ ws, word.token ≠ .invalid) →
      Mark.Sound marks) := by
  induction marks with
  | nil => exact ⟨by simp [Mark.Known], fun _ => by simp [Mark.Sound]⟩
  | cons mark marks ih =>
    obtain ⟨htoken, hcomments, hlexed⟩ := hlexed
    obtain ⟨hmark, hproper⟩ := List.forall_mem_cons.1 hproper
    obtain ⟨hknown, hsound⟩ := ih hlexed hproper
    have hhead := htoken.resolve_left hmark.1
    refine ⟨List.forall_mem_cons.2 ⟨⟨hhead.imp id And.left, hmark.2, hcomments⟩, hknown⟩,
      fun hvalid => ?_⟩
    obtain ⟨-, hvalid⟩ := List.forall_mem_cons.1 (show ∀ word ∈ mark.word :: (marks.map Mark.word ++ ws),
      word.token ≠ .invalid from hvalid)
    refine List.forall_mem_cons.2 ⟨hhead.resolve_right ?_, hsound hvalid⟩
    rintro ⟨-, next, hnext, hinvalid⟩
    exact hvalid next (List.mem_of_head? hnext) hinvalid

/-! ### Numbers -/

/-- Whether a text ends in the mark of an exponent. -/
def endsInExponentMark (text : String) : Bool :=
  text.toList.getLast?.any Token.isExponentMark

/-- The number that a node is, if it is one. -/
def Node.number (node : Node) : List String :=
  match node.kind, node.atom with
  | .intValue, .text text => [text]
  | .floatValue, .text text => [text]
  | _, _ => []

/-- The numbers in a tree as they are written. -/
def Node.numbers (node : Node) : List String :=
  node.gather Node.number

/-- The text of a token that is a number. -/
def Token.number? : Token → Option String
  | int text => some text
  | float text => some text
  | _ => none

/-- A known token that isn't a number is sound, and a number is unless its exponent lacks digits. -/
theorem Token.Known.sound_iff {token : Token} (h : token.Known) :
    token.Sound ↔ ∀ text ∈ token.number?, endsInExponentMark text = false := by
  have hwhole {text : String} (hw : token.IsWholeNumber) (htext : token.write = text.toList) :
      endsInExponentMark text = false := by
    have hlast := isDecimal_getLast_of_scanNumber hw.2 hw.1.ne_invalid
    rw [htext] at hlast
    unfold endsInExponentMark
    cases hc : text.toList.getLast? with
    | none => rfl
    | some c =>
      have hdecimal := hlast c hc
      rw [Option.any_some]
      by_contra hmark
      simp only [isExponentMark, Bool.or_eq_true, beq_iff_eq, Bool.not_eq_false] at hmark
      rcases hmark with rfl | rfl <;> cases hdecimal
  have hbare {text : String} (hb : token.IsBareNumber) (htext : token.write = text.toList) :
      endsInExponentMark text = true := by
    obtain ⟨mark, hmark, he⟩ := hb.mark
    rw [htext] at hmark
    rw [endsInExponentMark, Option.mem_def.1 hmark]
    exact he
  have hnumber (text : String) (htext : token.write = text.toList) (hsound : token.Sound ↔
      token.IsWholeNumber) : token.Sound ↔ endsInExponentMark text = false := by
    refine ⟨fun hs => hwhole (hsound.1 hs) htext, fun hmark => h.resolve_right fun hb => ?_⟩
    rw [hbare hb htext] at hmark
    cases hmark
  have hother (hnumber : ∀ text : List Char, ¬IsNumber token text) : token.Sound :=
    h.resolve_right fun hb => hnumber _ hb.number
  cases token with
  | int text => simpa [number?] using hnumber text rfl Iff.rfl
  | float text => simpa [number?] using hnumber text rfl Iff.rfl
  | _ => simpa [number?, IsNumber] using hother

/-- The own tokens of a rule are no numbers unless its nodes are. -/
theorem Production.number?_eq_none {p : Production} (hp : p.isReadable = true)
    (hint : p ≠ .of .intValue) (hfloat : p ≠ .of .floatValue) {shapes : List Shape}
    (h : SpellItems p.rule.items shapes) :
    ∀ shape ∈ shapes, shape.OwnToken fun token => token.number? = none := by
  refine h.ownToken (fun p => rfl) (fun text => rfl) fun l hl token atom hread => ?_
  have hcheck := check (fun p => !p.isReadable || p = .of .intValue || p = .of .floatValue ||
    (.literal .int ∉ p.rule.items.flatMap Item.parts &&
      .literal .float ∉ p.rule.items.flatMap Item.parts)) (by decide) p
  simp only [hp, hint, hfloat, Bool.not_true, decide_false, Bool.false_or, Bool.and_eq_true,
    decide_eq_true_eq] at hcheck
  cases token with
  | int text => cases l <;> first | exact absurd hl hcheck.1 | cases hread
  | float text => cases l <;> first | exact absurd hl hcheck.2 | cases hread
  | _ => rfl

/-- A node of a number has its own token only. -/
theorem Production.exists_number {p : Production} (hp : p = .of .intValue ∨ p = .of .floatValue)
    {elements : List Element} (h : SpellItems p.rule.items (Elements.shapes elements)) :
    ∃ token comments text, elements = [.own .comments ⟨token, comments⟩ false (.atom (.text text))] ∧
      token.number? = some text := by
  have hliteral {l : Literal} (hl : l = .int ∨ l = .float)
      (h : SpellItems [.literal l] (Elements.shapes elements)) : ∃ token comments text,
        elements = [.own .comments ⟨token, comments⟩ false (.atom (.text text))] ∧
          token.number? = some text := by
    obtain ⟨a, b, hshapes, ha, hb⟩ := h.exists_append
    obtain rfl := hb.eq_nil
    cases ha.of_part with
    | literal _ token atom hread =>
      rw [List.append_nil] at hshapes
      obtain ⟨comments, rfl⟩ := Elements.eq_own_of_shapes hshapes
      rcases hl with rfl | rfl <;> cases token <;> cases hread <;>
        exact ⟨_, comments, _, rfl, rfl⟩
  rcases hp with rfl | rfl
  · exact hliteral (.inl rfl) h
  · exact hliteral (.inr rfl) h

/-- The numbers in a node that is made of elements are its own and those in its children. -/
theorem Production.mem_numbers_finish {p : Production} (hp : p.isReadable = true)
    {description : Option Child} {elements : List Element}
    (hdescribed : description.isSome = true → p.rule.described = true)
    (hspells : SpellItems p.rule.items (Elements.shapes elements)) (text : String) :
    text ∈ (p.finish (descriptionElements description ++ elements)).numbers ↔
      text ∈ (p.finish (descriptionElements description ++ elements)).number ∨
        ∃ slot goal c, .child slot goal c ∈ descriptionElements description ++ elements ∧
          text ∈ c.node.numbers := by
  rw [Node.numbers, (gather_finish hp hdescribed hspells _).mem_iff, List.mem_append]
  refine or_congr_right ⟨fun h => ?_, ?_⟩
  · obtain ⟨entry, hentry, htext⟩ := List.mem_flatMap.1 h
    obtain ⟨element, hmem, hentry⟩ := List.mem_flatMap.1 hentry
    cases element with
    | space piece => cases hentry
    | own slot word spare gift =>
      -- Neither comments nor names are numbers.
      rcases List.mem_append.1 hentry with hentry | hentry
      · obtain ⟨⟨inline, comment⟩, -, rfl⟩ := List.mem_map.1 hentry
        cases inline <;> simp [Node.ofComment, Node.gather, Node.gatherIn, Node.number, Node.kind,
          Node.atom] at htext
      · cases gift with
        | name slot' name =>
          obtain rfl := List.mem_singleton.1 hentry
          simp [Node.ofName, Node.gather, Node.gatherIn, Node.number, Node.kind, Node.atom] at htext
        | _ => cases hentry
    | child slot goal c =>
      obtain rfl := List.mem_singleton.1 hentry
      exact ⟨slot, goal, c, hmem, htext⟩
  · rintro ⟨slot, goal, c, hmem, htext⟩
    exact List.mem_flatMap.2 ⟨(slot, c.node), List.mem_flatMap.2 ⟨_, hmem, List.mem_singleton_self _⟩,
      htext⟩

/-- The own tokens of a node are sound unless it is a number whose exponent lacks digits. -/
theorem Production.own_sound_iff {p : Production} (hp : p.isReadable = true)
    {description : Option Child} {elements : List Element}
    (hdescribed : description.isSome = true → p.rule.described = true)
    (hspells : SpellItems p.rule.items (Elements.shapes elements))
    (hknown : Mark.Known (Elements.marks elements)) :
    (∀ slot word spare gift, .own slot word spare gift ∈ elements → word.token.Sound) ↔
      ∀ text ∈ (p.finish (descriptionElements description ++ elements)).number,
        endsInExponentMark text = false := by
  have hword {slot : Slot} {word : Word} {spare : Bool} {gift : Gift}
      (hmem : .own slot word spare gift ∈ elements) : word.token.Known :=
    (hknown ⟨word, spare⟩ (List.mem_flatMap.2 ⟨_, hmem, List.mem_singleton_self _⟩)).1
  -- A number is the only token of its node; the other nodes have no number of their own.
  by_cases hnumber : p = .of .intValue ∨ p = .of .floatValue
  · have hnone : description = none := by
      cases description with
      | none => rfl
      | some c => rcases hnumber with rfl | rfl <;> cases hdescribed rfl
    obtain ⟨token, comments, text, rfl, htext⟩ := exists_number hnumber hspells
    have hfinish : (p.finish (descriptionElements description ++
        [.own .comments ⟨token, comments⟩ false (.atom (.text text))])).number = [text] := by
      subst hnone
      rcases hnumber with rfl | rfl <;> rfl
    have hsound := (hword List.mem_cons_self).sound_iff
    rw [htext] at hsound
    simp only [hfinish, List.mem_singleton, Element.own.injEq, forall_eq]
    simp only [Option.mem_def, Option.some.injEq, forall_eq'] at hsound
    refine Iff.trans ⟨fun h => h .comments ⟨token, comments⟩ false _ ⟨rfl, rfl, rfl, rfl⟩, ?_⟩ hsound
    rintro h slot word spare gift ⟨-, rfl, -, -⟩
    exact h
  · rw [not_or] at hnumber
    have hown := number?_eq_none hp hnumber.1 hnumber.2 hspells
    have hnil : (p.finish (descriptionElements description ++ elements)).number = [] := by
      have hkind : p.kind ≠ .intValue ∧ p.kind ≠ .floatValue := by
        cases p with
        | of kind => exact ⟨fun h => hnumber.1 (congrArg of h), fun h => hnumber.2 (congrArg of h)⟩
        | _ => exact ⟨Kind.noConfusion, Kind.noConfusion⟩
      unfold Node.number
      split
      · next h _ => exact absurd h hkind.1
      · next h _ => exact absurd h hkind.2
      · rfl
    rw [hnil]
    refine iff_of_true (fun slot word spare gift hmem => ?_) (by simp)
    refine (hword hmem).sound_iff.2 fun text htext => ?_
    have hnone : word.token.number? = none := hown _ (List.mem_map_of_mem hmem)
    rw [hnone] at htext
    cases htext

/-- The numbers in a node that has comments and one child. -/
private theorem Node.numbers_commented {kind : Kind} {atom : Atom} {comments : List Comment}
    {slot : Slot} {node : Node}
    (hnumber : (mk kind atom (ofComments .comments comments ++ [(slot, node)])).number = []) :
    (mk kind atom (ofComments .comments comments ++ [(slot, node)])).numbers = node.numbers := by
  have hcomments : ((ofComments .comments comments).flatMap fun entry => entry.2.gather number) = [] := by
    refine List.flatMap_eq_nil_iff.2 fun entry hentry => ?_
    obtain ⟨⟨inline, text⟩, -, rfl⟩ := List.mem_map.1 hentry
    cases inline <;> rfl
  rw [numbers, gather_mk, hnumber, List.flatMap_append, hcomments]
  simp [numbers]

/-- The tokens of a derivation are sound if and only if no number in the node ends in the mark of an
exponent. -/
theorem Derives.sound_iff {goal : Goal} {marks : List Mark} {pieces : List Piece} {node : Node}
    (h : Derives goal marks pieces node) (hknown : Mark.Known marks) :
    Mark.Sound marks ↔ ∀ text ∈ node.numbers, endsInExponentMark text = false := by
  induction h with
  | @production goal p description elements hgoal hreadable hdescribed hspells hdemand hquery
      hdescription hchildren ihdescription ihchildren =>
    have hmarks (element : Element) (hmem : element ∈ descriptionElements description ++ elements) :
        Mark.Known element.marks :=
      fun mark hmark => hknown mark (List.mem_flatMap.2 ⟨element, hmem, hmark⟩)
    -- By induction for the description and the children, and by `Production.own_sound_iff` for own
    -- tokens.
    have hchild {slot : Slot} {subgoal : Goal} {c : Child}
        (hc : .child slot subgoal c ∈ descriptionElements description ++ elements) :
        Mark.Sound c.marks ↔ ∀ text ∈ c.node.numbers, endsInExponentMark text = false := by
      rcases List.mem_append.1 hc with hmem | hmem
      · obtain ⟨-, rfl, hsome⟩ := mem_descriptionElements hmem
        exact ihdescription c hsome (hmarks _ hc)
      · exact ihchildren slot subgoal c hmem (hmarks _ hc)
    have hown := Production.own_sound_iff hreadable hdescribed hspells fun mark hmark =>
      hknown mark (by rw [Elements.marks_append]; exact List.mem_append_right _ hmark)
    constructor
    · intro hsound text htext
      have helement (element : Element)
          (hmem : element ∈ descriptionElements description ++ elements) :
          Mark.Sound element.marks :=
        fun mark hmark => hsound mark (List.mem_flatMap.2 ⟨element, hmem, hmark⟩)
      rcases (Production.mem_numbers_finish hreadable hdescribed hspells text).1 htext with
        htext | ⟨slot, subgoal, c, hc, htext⟩
      · refine hown.1 (fun slot word spare gift hmem => ?_) text htext
        exact helement _ (List.mem_append_right _ hmem) ⟨word, spare⟩ (List.mem_singleton_self _)
      · exact (hchild hc).1 (helement _ hc) text htext
    · intro htexts mark hmark
      have hmem (text : String) :=
        (Production.mem_numbers_finish hreadable hdescribed hspells text).2
      obtain ⟨element, helement, hmark⟩ := List.mem_flatMap.1 hmark
      cases element with
      | space piece => cases hmark
      | own slot word spare gift =>
        obtain rfl := List.mem_singleton.1 hmark
        have helement : .own slot word spare gift ∈ elements := by
          cases description with
          | none => exact helement
          | some c => simpa [descriptionElements] using helement
        exact hown.2 (fun text htext => htexts text (hmem text (.inl htext))) slot word spare gift helement
      | child slot subgoal c =>
        exact (hchild helement).2
          (fun text htext => htexts text (hmem text (.inr ⟨slot, subgoal, c, helement, htext⟩))) mark hmark
  | @query goal c comments hgoal hshorthand hchild ih =>
    obtain ⟨hquery, hknown⟩ := List.forall_mem_cons.1 hknown
    have hsound : (Token.name Keyword.query.text).Sound :=
      hquery.1.sound_iff.2 fun text htext => by cases htext
    rw [Node.numbers_commented rfl, ← ih hknown]
    exact List.forall_mem_cons.trans (and_iff_right hsound)
  | @nonNull marks pieces node comments h hkind ih =>
    rw [Mark.known_append] at hknown
    rw [Node.numbers_commented rfl, ← ih hknown.1]
    refine List.forall_mem_append.trans (and_iff_left ?_)
    simp [Token.Sound]

/-- No spare token is a number. -/
theorem Derives.number?_of_spare {goal : Goal} {marks : List Mark} {pieces : List Piece} {node : Node}
    (h : Derives goal marks pieces node) :
    ∀ mark ∈ marks, mark.spare = true → mark.word.token.number? = none := by
  induction h with
  | @production goal p description elements hgoal hreadable hdescribed hspells hdemand hquery
      hdescription hchildren ihdescription ihchildren =>
    intro mark hmark hspare
    obtain ⟨element, hmem, hmark⟩ := List.mem_flatMap.1 hmark
    cases element with
    | space piece => cases hmark
    | child slot subgoal c =>
      rcases List.mem_append.1 hmem with hmem | hmem
      · obtain ⟨-, -, hsome⟩ := mem_descriptionElements hmem
        exact ihdescription c hsome mark hmark hspare
      · exact ihchildren slot subgoal c hmem mark hmark hspare
    | own slot word spare gift =>
      obtain rfl := List.mem_singleton.1 hmark
      have hmem : .own slot word spare gift ∈ elements := by
        cases description with
        | none => exact hmem
        | some c => simpa [descriptionElements] using hmem
      by_cases hnumber : p = .of .intValue ∨ p = .of .floatValue
      · obtain ⟨token, comments, text, rfl, -⟩ := Production.exists_number hnumber hspells
        obtain ⟨rfl, rfl, rfl, rfl⟩ : slot = .comments ∧ word = ⟨token, comments⟩ ∧ spare = false ∧
            gift = .atom (.text text) := by simpa using hmem
        cases hspare
      · rw [not_or] at hnumber
        exact Production.number?_eq_none hreadable hnumber.1 hnumber.2 hspells _
          (List.mem_map_of_mem hmem)
  | @query goal c comments hgoal hshorthand hchild ih =>
    exact List.forall_mem_cons.2 ⟨fun _ => rfl, ih⟩
  | @nonNull marks pieces node comments h hkind ih =>
    exact List.forall_mem_append.2 ⟨ih, by simp⟩

end GraphQLTree
