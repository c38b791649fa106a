import GraphQLTree.Proofs.Grammar.Completeness
import GraphQLTree.Proofs.Grammar.Rereading
import GraphQLTree.Proofs.Grammar.Soundness
import GraphQLTree.Proofs.Grammar.Tokens
import GraphQLTree.Proofs.Parsing.Target

/-!
# Parsing printed nodes

A node that was parsed has a derivation, and the text that is printed of it is that of the pieces of
the derivation (`Target.exists_printed`). So the printed text can be parsed as the same target unless
it has a lexical error, and what comes of that is printed as the same text.
-/

namespace GraphQLTree

/-! ### Sound pieces -/

/-- Known pieces are sound if the tokens of their words are. -/
theorem Piece.Known.sound {pieces : List Piece} (h : Known pieces) (pending : List Comment)
    (hwords : ∀ word ∈ (words pending pieces).1, word.token.Sound) : Sound pieces := by
  fun_induction words pending pieces with
  | case1 pending => exact fun piece hp => by cases hp
  | case2 pending text pieces ih => exact List.forall_mem_cons.2 ⟨h.cons.1, ih h.cons.2 hwords⟩
  | case3 pending text pieces ih => exact List.forall_mem_cons.2 ⟨h.cons.1, ih h.cons.2 hwords⟩
  | case4 pending t text pieces ih =>
    obtain ⟨htoken, hwords⟩ := List.forall_mem_cons.1 hwords
    exact List.forall_mem_cons.2 ⟨⟨htoken, h.cons.1.2⟩,
      List.forall_mem_cons.2 ⟨h.cons.2.cons.1, ih h.cons.2.cons.2 hwords⟩⟩
  | case5 pending t pieces hp ih =>
    obtain ⟨htoken, hwords⟩ := List.forall_mem_cons.1 hwords
    exact List.forall_mem_cons.2 ⟨⟨htoken, h.cons.1.2⟩, ih h.cons.2 hwords⟩
  | case6 pending piece pieces h1 h2 h3 h4 ih =>
    refine List.forall_mem_cons.2 ⟨?_, ih h.cons.2 hwords⟩
    cases piece with
    | token t => exact (h4 t rfl).elim
    | _ => exact h.cons.1

theorem Piece.token_mem_of_words {pieces : List Piece} {pending : List Comment} {word : Word}
    (h : word ∈ (words pending pieces).1) : .token word.token ∈ pieces := by
  fun_induction words pending pieces with
  | case1 pending => cases h
  | case2 pending text pieces ih => exact List.mem_cons_of_mem _ (ih h)
  | case3 pending text pieces ih => exact List.mem_cons_of_mem _ (ih h)
  | case4 pending t text pieces ih =>
    rcases List.mem_cons.1 h with rfl | h
    · exact List.mem_cons_self
    · exact List.mem_cons_of_mem _ (List.mem_cons_of_mem _ (ih h))
  | case5 pending t pieces hp ih =>
    rcases List.mem_cons.1 h with rfl | h
    · exact List.mem_cons_self
    · exact List.mem_cons_of_mem _ (ih h)
  | case6 pending piece pieces h1 h2 h3 h4 ih => exact List.mem_cons_of_mem _ (ih h)

/-- The pieces of a derivation are sound in any style if its tokens are. -/
theorem Derives.sound_styled_iff {goal : Goal} {marks : List Mark} {pieces : List Piece} {node : Node}
    (h : Derives goal marks pieces node) (hknown : Mark.Known marks) (style : Style) :
    Piece.Sound (Piece.styled style pieces) ↔ Mark.Sound marks := by
  obtain ⟨marks', node', hderives, hyields, hanchored, hkept, htokens, hbare⟩ := h.rereads style []
  have hyields : Piece.Yields (Piece.styled style pieces) (marks'.map Mark.word) := hyields
  rw [Mark.writtenTokens_eq hkept] at htokens
  have hwords : (Piece.words [] (Piece.styled style pieces)).1 = marks'.map Mark.word :=
    congrArg Prod.fst hyields
  have htoken (token : Token) : token ∈ marks'.map (fun mark => mark.word.token) ↔
      ∃ mark ∈ marks, mark.spare = false ∧ mark.word.token = token := by
    rw [htokens, Mark.writtenTokens, Mark.written, List.mem_map]
    simp [and_assoc]
  constructor
  · intro hsound mark hmark
    cases hspare : mark.spare with
    | true =>
      refine (hknown mark hmark).1.sound_iff.2 fun text htext => ?_
      rw [h.number?_of_spare mark hmark hspare] at htext
      cases htext
    | false =>
      obtain ⟨mark', hmark', he⟩ := List.mem_map.1 ((htoken _).2 ⟨mark, hmark, hspare, rfl⟩)
      have hword : mark'.word ∈ (Piece.words [] (Piece.styled style pieces)).1 :=
        hwords ▸ List.mem_map_of_mem hmark'
      rw [← he]
      exact (hsound _ (Piece.token_mem_of_words hword)).1
  · intro hsound
    refine ((h.prints hknown style).2.2.styled style).sound [] fun word hword => ?_
    rw [hwords] at hword
    obtain ⟨mark', hmark', rfl⟩ := List.mem_map.1 hword
    obtain ⟨mark, hmark, -, he⟩ := (htoken _).1 (List.mem_map_of_mem hmark')
    exact he ▸ hsound mark hmark

/-! ### Lexical errors of printed text -/

/-- The tokens of the strokes of pieces. -/
theorem Piece.map_token_spread (pretty : Bool) (gap : List Char) (pieces : List Piece) :
    (spread pretty gap pieces).1.map Stroke.token = pieces.filterMap ink := by
  induction pieces generalizing gap with
  | nil => rfl
  | cons piece pieces ih =>
    cases hink : piece.ink with
    | none => rw [spread_space hink, List.filterMap_cons_none hink, ih]
    | some t => rw [spread_ink hink, List.filterMap_cons_some hink, List.map_cons, ih]

/-- Printed text has no lexical error if and only if its tokens are sound. -/
theorem Piece.tokenize_render_eq_none_iff {pretty : Bool} {pieces : List Piece}
    (hspaced : Spaced .clear pieces) (hknown : Known pieces) :
    (tokenize (String.ofList (render pretty pieces))).2 = none ↔ Sound pieces := by
  have hvalid (t : Token) (ht : t.Known) : t.rescanned ≠ .invalid ↔ t.Sound := by
    refine ⟨fun h => ht.resolve_right fun hbare => h hbare.rescanned, fun h => ?_⟩
    rw [h.rescanned]
    exact h.ne_invalid
  have hsound : Sound pieces ↔ ∀ t ∈ pieces.filterMap ink, t.Sound := by
    constructor
    · intro h t ht
      obtain ⟨piece, hmem, hink⟩ := List.mem_filterMap.1 ht
      have hpiece := h piece hmem
      cases piece with
      | token t' => exact Option.some.inj hink ▸ hpiece.1
      | leading text => exact Option.some.inj hink ▸ hpiece
      | trailing text => exact Option.some.inj hink ▸ hpiece
      | _ => cases hink
    · intro h piece hmem
      have hpiece := hknown piece hmem
      cases piece with
      | token t => exact ⟨h t (List.mem_filterMap.2 ⟨_, hmem, rfl⟩), hpiece.2⟩
      | _ => exact hpiece
  have hwords : (∀ token ∈ (Word.ofText (render pretty pieces)).1.map Word.token,
      token ≠ .invalid) ↔ ∀ t ∈ pieces.filterMap ink, t.rescanned ≠ .invalid := by
    have hscraps : (Scrap.scanAll (render pretty pieces)).map Scrap.token =
        (pieces.filterMap ink).map Token.rescanned := by
      rw [scanAll_render hspaced hknown, ← map_token_spread pretty [] pieces, List.map_map,
        List.map_map]
      rfl
    rw [Word.tokens_ofText, hscraps]
    constructor
    · intro h t ht hinvalid
      refine h t.rescanned (List.mem_filter.2 ⟨List.mem_map_of_mem ht, ?_⟩) hinvalid
      rw [hinvalid]
      rfl
    · intro h token htoken
      obtain ⟨t, ht, rfl⟩ := List.mem_map.1 (List.mem_filter.1 htoken).1
      exact h t ht
  rw [List.forall_mem_map] at hwords
  rw [tokenize_eq_none_iff, String.toList_ofList, hwords, hsound]
  refine forall₂_congr fun t ht => hvalid t ?_
  obtain ⟨piece, hmem, hink⟩ := List.mem_filterMap.1 ht
  exact (hknown piece hmem).ink hink

/-! ### Input values -/

/-- Input values in braces are input values. -/
theorem Derives.inputValues {marks : List Mark} {pieces : List Piece} {node : Node}
    (h : Derives (.kind .inputValueDefinitionSet) marks pieces node) :
    Derives .inputValues marks pieces node := by
  cases h with
  | production hgoal hreadable hdescribed hspells hdemand hquery hdescription hchildren =>
    obtain rfl := List.mem_singleton.1 hgoal
    exact .production (by simp [Goal.productions]) hreadable hdescribed hspells hdemand hquery
      hdescription hchildren
  | query comments hgoal hshorthand hchild => cases List.mem_singleton.1 hgoal

/-- The elements of input values in brackets. -/
def Elements.inputValues (p q : Punctuator) (padded : Bool) (comments comments' : List Comment)
    (children : List Child) : List Element :=
  .own .commentsOpeningBracket ⟨.punct p, comments⟩ false .nothing ::
    (Element.listed .definitions (.kind .inputValueDefinition) padded children ++
      [.own .commentsClosingBracket ⟨.punct q, comments'⟩ false .nothing])

namespace Elements

variable (p q : Punctuator) (padded : Bool) (comments comments' : List Comment)
  (children : List Child)

theorem marks_inputValues : marks (inputValues p q padded comments comments' children) =
    ⟨⟨.punct p, comments⟩, false⟩ ::
      (children.flatMap Child.marks ++ [⟨⟨.punct q, comments'⟩, false⟩]) := by
  simp [inputValues, Element.marks_listed]

/-- The node of input values doesn't depend on their brackets. -/
theorem finish_inputValues (p' q' : Punctuator) (padded' : Bool) {production production' : Production}
    (hkind : production.kind = production'.kind)
    (hstart : production.rule.start = production'.rule.start) :
    production.finish (inputValues p q padded comments comments' children) =
      production'.finish (inputValues p' q' padded' comments comments' children) := by
  have hentries (p q : Punctuator) (padded : Bool) :
      entries (inputValues p q padded comments comments' children) =
        entries (inputValues p' q' padded' comments comments' children) := by
    simp [inputValues, Element.entries_listed]
  have hatom (p q : Punctuator) (padded : Bool) :
      Shape.atom? (shapes (inputValues p q padded comments comments' children)) = none := by
    simp [inputValues, Shape.atom?, Element.shapes_listed, Shape.atom?_append, Shape.atom?_listed]
  rw [Production.finish, Production.finish, hatom, hatom, hentries, hkind, hstart]

/-- Whether the words of input values are known doesn't depend on their brackets. -/
theorem known_inputValues : Mark.Known (marks (inputValues p q padded comments comments' children)) ↔
    SoundComments comments ∧ Mark.Known (children.flatMap Child.marks) ∧ SoundComments comments' := by
  rw [marks_inputValues, Mark.Known, List.forall_mem_cons, List.forall_mem_append,
    List.forall_mem_singleton]
  simp only [Token.Known, Token.Sound, Token.isComment, true_or, true_and, Mark.Known]

end Elements

/-- Input values in braces, with spaces inside of them, are spelled by the rule for those. -/
theorem SpellItems.inputValues {children : List Child} (hchildren : children.length = 0 → false = true)
    (comments comments' : List Comment) :
    SpellItems (Rule.ofKind .inputValueDefinitionSet).items (Elements.shapes
      (Elements.inputValues .braceOpen .braceClose true comments comments' children)) := by
  have hitems : (Rule.ofKind .inputValueDefinitionSet).items =
      [.part (.bracket .braceOpen .commentsOpeningBracket),
        .part (.listed .definitions (.kind .inputValueDefinition) .braceClose false),
        .part (.bracket .braceClose .commentsClosingBracket)] := rfl
  have hlisted := Part.Spells.listed .definitions (.kind .inputValueDefinition) .braceClose
    false children.length hchildren
  have hshapes := SpellItems.cons (.part (Part.Spells.bracket .braceOpen .commentsOpeningBracket))
    (.cons (.part hlisted) (.cons (.part (.bracket .braceClose .commentsClosingBracket)) .nil))
  rw [hitems]
  simpa [Elements.inputValues, Element.shapes_listed] using hshapes

/-- What the rule for the arguments of a definition spells is input values in parentheses. -/
theorem Elements.exists_inputValues {elements : List Element}
    (h : SpellItems Production.argumentDefinitions.rule.items (shapes elements)) :
    ∃ comments comments' children, (children.length = 0 → false = true) ∧
      elements = inputValues .parenOpen .parenClose false comments comments' children := by
  obtain ⟨a, b, hshapes, ha, hb⟩ := h.exists_append
  obtain ⟨c, d, rfl, hc, hd⟩ := hb.exists_append
  obtain ⟨e, f, rfl, he, hf⟩ := hd.exists_append
  obtain rfl := hf.eq_nil
  cases ha.of_part
  cases he.of_part
  cases hc.of_part with
  | listed slot goal close allowEmpty n hn =>
    obtain ⟨as, bs, rfl, has, hbs⟩ := exists_append_of_shapes hshapes
    obtain ⟨cs, ds, rfl, hcs, hds⟩ := exists_append_of_shapes hbs
    obtain ⟨comments, rfl⟩ := eq_own_of_shapes has
    obtain ⟨children, rfl, rfl⟩ := exists_listed_of_shapes hcs
    obtain ⟨comments', rfl⟩ := eq_own_of_shapes (by simpa using hds)
    exact ⟨comments, comments', children, hn, rfl⟩

/-- Input values are those of a derivation with braces. -/
theorem Derives.exists_braced {marks : List Mark} {pieces : List Piece} {node : Node}
    (h : Derives .inputValues marks pieces node) :
    ∃ marks' pieces', Derives (.kind .inputValueDefinitionSet) marks' pieces' node ∧
      (Mark.Known marks → Mark.Known marks') := by
  cases h with
  | query comments hgoal hshorthand hchild => simp [Goal.productions] at hgoal
  | @production _ p description elements hgoal hreadable hdescribed hspells hdemand hquery
      hdescription hchildren =>
    simp only [Goal.productions, List.mem_cons, List.not_mem_nil, or_false] at hgoal
    rcases hgoal with rfl | rfl
    · obtain rfl : description = none := by
        cases description with
        | none => rfl
        | some c => cases hdescribed rfl
      -- Parentheses become braces, and there are spaces inside of them.
      obtain ⟨comments, comments', children, hsome, rfl⟩ := Elements.exists_inputValues hspells
      have hderived (c : Child) (hc : c ∈ children) :
          Derives (.kind .inputValueDefinition) c.marks c.pieces c.node := by
        have hmem := Element.mem_listed .definitions (.kind .inputValueDefinition) false hc
        exact hchildren .definitions _ c (by simp [Elements.inputValues, hmem])
      have hnew : Derives (.kind .inputValueDefinitionSet) _ _ _ :=
        @Derives.production _ _ none
          (Elements.inputValues .braceOpen .braceClose true comments comments' children)
          (List.mem_singleton_self _) rfl (fun h => by cases h)
          (SpellItems.inputValues hsome comments comments') (fun h => by cases h)
          (fun h => by cases h) (fun c hc => by cases hc) fun slot subgoal c hmem =>
            Element.derived_listed .definitions hderived true (.child slot subgoal c)
              (by simpa [Elements.inputValues] using hmem)
      have hnode : Production.finish (.of .inputValueDefinitionSet)
            (Elements.inputValues .braceOpen .braceClose true comments comments' children) =
          Production.finish .argumentDefinitions
            (Elements.inputValues .parenOpen .parenClose false comments comments' children) :=
        Elements.finish_inputValues _ _ _ _ _ _ _ _ _ rfl rfl
      rw [descriptionElements, List.nil_append, hnode] at hnew
      refine ⟨_, _, hnew, fun h => ?_⟩
      exact (Elements.known_inputValues ..).2 ((Elements.known_inputValues ..).1 h)
    · exact ⟨_, _, .production (List.mem_singleton_self _) hreadable hdescribed hspells hdemand
        hquery hdescription hchildren, id⟩

/-! ### Printing what was parsed -/

/-- A node that was parsed is printed as the pieces of a derivation. -/
theorem Target.exists_printed {g : Goal} (hg : goal g ∈ parsable) {text : String} {node : Node}
    (h : (goal g).parse text = .ok node) :
    ∃ g' marks pieces, Derives g' marks pieces node ∧ g'.fits none = true ∧
      (∀ marks pieces node, Derives g' marks pieces node → Derives g marks pieces node) ∧
      Mark.Known marks := by
  unfold parse at h
  split at h
  · next node' rest hread =>
    obtain rfl := Except.ok.inj h
    obtain ⟨c, rfl, ⟨taken, hlexemes, hwords⟩, hderives⟩ :=
      Goal.read_sound _ g _ _ _ (isReadable_of_parsable hg) hread
    have htext : (Word.ofText text.toList).1 = c.marks.map Mark.word ++ rest.map Lexeme.word := by
      rw [← TokenStream.map_word_lexemes, ← hwords, ← List.map_append]
      exact congrArg (List.map Lexeme.word) hlexemes
    have hlexed := htext ▸ Word.lexed_ofText text.toList
    have hknown := (Mark.known_of_lexed hlexed hderives.isProper).1
    by_cases hvalues : g = .inputValues
    · subst hvalues
      obtain ⟨marks, pieces, hbraced, hknown'⟩ := hderives.exists_braced
      exact ⟨_, marks, pieces, hbraced, rfl, fun _ _ _ => Derives.inputValues, hknown' hknown⟩
    · have hcheck : ∀ target ∈ parsable, ∀ g, target = goal g → g ≠ .inputValues →
          g.fits none = true := by
        have hall : (parsable.all fun target => match target with
            | goal g => g = .inputValues || g.fits none
            | document => true) = true := by decide
        rintro target htarget g rfl hne
        simpa [hne] using List.all_eq_true.1 hall _ htarget
      exact ⟨g, c.marks, c.pieces, hderives, hcheck _ hg g rfl hvalues, fun _ _ _ => id, hknown⟩
  · cases h
  · cases h

/-- A text whose words are those of a derivation is parsed as the node of the derivation. -/
theorem Derives.parse {g : Goal} {marks : List Mark} {pieces : List Piece} {node : Node}
    (h : Derives g marks pieces node) {text : String} {comments : List Comment}
    (htext : Word.ofText text.toList = (marks.map Mark.word, comments)) :
    (Target.goal g).parse text = .ok node := by
  have hwords : (TokenStream.ofText text).lexemes.map Lexeme.word = marks.map Mark.word := by
    rw [TokenStream.ofText, TokenStream.map_word_lexemes, htext]
  have hlength : (TokenStream.ofText text).lexemes.length = marks.length := by
    simpa using congrArg List.length hwords
  have hclear : Clear g.further [] := by
    rintro token ⟨⟩
  have hdepth : 4 * (marks.length + 1) ≤ Goal.depthFor (TokenStream.ofText text).lexemes := by
    refine Nat.le_of_eq ?_
    rw [Goal.depthFor, hlength]
  have hread := h.read hdepth hwords hclear
  rw [List.append_nil] at hread
  rw [Target.parse, TokenStream.read, TokenStream.readGoal, hread]

/-- The text that is printed of a derivation has no lexical error if and only if its tokens are
sound. -/
theorem Derives.tokenize_print_iff {g : Goal} {marks : List Mark} {pieces : List Piece} {node : Node}
    (h : Derives g marks pieces node) (hfits : g.fits none = true) (hknown : Mark.Known marks)
    (style : Style) : (tokenize (node.print style)).2 = none ↔ Mark.Sound marks := by
  obtain ⟨hlayout, -, hpieces⟩ := h.prints hknown style
  rw [Node.print, hlayout none hfits,
    Piece.tokenize_render_eq_none_iff (h.spaced style) (hpieces.styled style),
    h.sound_styled_iff hknown]

/-- What is printed of a derivation with sound tokens is parsed as a node like the one that was printed
but for comments, and printing that in another style gives what is printed of the first one. -/
theorem Derives.exists_reparse {g g' : Goal} {marks : List Mark} {pieces : List Piece} {node : Node}
    (h : Derives g marks pieces node) (hfits : g.fits none = true)
    (hwiden : ∀ marks pieces node, Derives g marks pieces node → Derives g' marks pieces node)
    (hknown : Mark.Known marks) (hsound : Mark.Sound marks) {style style' : Style}
    (hadmits : style.Admits style') :
    ∃ node', (Target.goal g').parse (node.print style) = .ok node' ∧ node'.bare = node.bare ∧
      node'.print style' = node.print style' := by
  obtain ⟨hlayout, -, -⟩ := h.prints hknown style
  obtain ⟨marks', node', hderives, hyields, -, -, -, hbare⟩ := h.rereads style []
  have hderives : Derives g marks' (Piece.styled style pieces) node' := hderives
  have htext : Word.ofText (node.print style).toList = (marks'.map Mark.word, []) := by
    rw [Node.print, hlayout none hfits, String.toList_ofList,
      Piece.ofText_render (h.spaced style) ((h.sound_styled_iff hknown style).2 hsound)]
    exact hyields
  have hlexed : Word.Lexed (marks'.map Mark.word ++ []) := by
    have hlexed := Word.lexed_ofText (node.print style).toList
    rwa [htext, ← List.append_nil (marks'.map Mark.word)] at hlexed
  have hknown' := (Mark.known_of_lexed hlexed hderives.isProper).1
  refine ⟨node', (hwiden _ _ _ hderives).parse htext, hbare, congrArg String.ofList ?_⟩
  -- Both nodes have the same pieces, and the second style finds all that it needs in the first one.
  rw [(hderives.prints hknown' style').1 none hfits, (h.prints hknown style').1 none hfits,
    Piece.styled_styled hadmits]

namespace Target

/-- What is printed of a parsed node has no lexical error if and only if no number in the node ends in
the mark of an exponent. It can be parsed as the same target then, and what comes of that is printed as
the same text in every style that finds all that it needs in the first one. -/
theorem parse_print {g : Goal} (hg : goal g ∈ parsable) (text : String) {node : Node}
    (h : (goal g).parse text = .ok node) {style style' : Style} (hadmits : style.Admits style') :
    ((tokenize (node.print style)).2 = none ↔
      ∀ number ∈ node.numbers, endsInExponentMark number = false) ∧
    ((∀ number ∈ node.numbers, endsInExponentMark number = false) →
      ∃ node', (goal g).parse (node.print style) = .ok node' ∧
        node'.print style' = node.print style') := by
  obtain ⟨g', marks, pieces, hderives, hfits, hwiden, hknown⟩ := exists_printed hg h
  have hnumbers := hderives.sound_iff hknown
  refine ⟨(hderives.tokenize_print_iff hfits hknown style).trans hnumbers, fun hwhole => ?_⟩
  obtain ⟨node', hparse, -, hprint⟩ :=
    hderives.exists_reparse hfits hwiden hknown (hnumbers.2 hwhole) hadmits
  exact ⟨node', hparse, hprint⟩

/-- The comment behind the dollar sign of a variable moves behind its name. -/
theorem parse_print_variable :
    ((tokenize (Node.print ⟨false, true⟩ (.mk .variableUse .none
        (Node.ofComments .comments [⟨true, "one"⟩] ++ [(.name, .ofName "x")])))).2 = none ↔
      ∀ number ∈ (Node.mk .variableUse .none
          (Node.ofComments .comments [⟨true, "one"⟩] ++ [(.name, .ofName "x")])).numbers,
        endsInExponentMark number = false) ∧
    ((∀ number ∈ (Node.mk .variableUse .none
          (Node.ofComments .comments [⟨true, "one"⟩] ++ [(.name, .ofName "x")])).numbers,
        endsInExponentMark number = false) →
      ∃ node', (goal (.kind .variableUse)).parse (Node.print ⟨false, true⟩ (.mk .variableUse .none
          (Node.ofComments .comments [⟨true, "one"⟩] ++ [(.name, .ofName "x")]))) = .ok node' ∧
        node'.print ⟨true, true⟩ = Node.print ⟨true, true⟩ (.mk .variableUse .none
          (Node.ofComments .comments [⟨true, "one"⟩] ++ [(.name, .ofName "x")]))) :=
  parse_print (by decide) "$#one\nx" (by decide +kernel) ⟨id, .inr (.inl rfl)⟩

/-- A number whose exponent lacks digits is parsed, but what is printed of it isn't. -/
theorem parse_print_exponentMark :
    ((goal (.kind .intValue)).parse "1e+").toOption = some (.mk .intValue (.text "1e") []) ∧
      ((goal (.kind .intValue)).parse
        (Node.print .compact (.mk .intValue (.text "1e") []))).toOption = none := by
  decide

end Target

end GraphQLTree
