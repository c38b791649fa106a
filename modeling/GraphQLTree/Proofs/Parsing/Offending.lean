import GraphQLTree.Proofs.Grammar.Lookahead
import GraphQLTree.Proofs.Grammar.Tokens
import GraphQLTree.Proofs.Language.Failures
import GraphQLTree.Proofs.Parsing.Grammar
import GraphQLTree.Proofs.Token.Places

/-!
# Where documents fail

A text with a syntax error is **cut** at the token that the diagnostic points to, or at its end. The
token is the first offending one, which has two halves.

* The tokens in front of it are **viable**: a list of usable tokens completes them to a document
  (`TokenStream.readDocument_viable`). A text of these tokens behind a line break turns that into a text
  that is parsed (`exists_more`).
* The parser decides on the token alone: it fails there in the same way whatever tokens are behind it
  (`TokenStream.readDocument_agree`). A line break keeps the token what it is, and so the text behind it
  may be any other one.

Only a number that ends in the mark of an exponent is a token that what is behind it decides on: it is
read in front of a sign without digits, and nowhere else. The second half leaves it out.
-/

namespace GraphQLTree

open Language

/-! ### What is in front of the offending token -/

/-- Whether some tokens are those of definitions that a document may have. -/
def Language.YieldsDefinitions (tokens : List Token) : Prop :=
  ∃ definitions : List (List Token × Node), definitions ≠ [] ∧
    (∀ d ∈ definitions, YieldsNode .definition d.1 d.2) ∧ definitions.IsChain Separate ∧
    tokens = definitions.flatMap Prod.fst

/-- A definition that no brace starts. -/
private theorem exists_scalar : ∃ tokens node, (∀ token ∈ tokens, token.IsUsable) ∧
    YieldsNode .definition tokens node ∧ tokens.head? ≠ some (.punct .braceOpen) := by
  have hform : Form.ofKind (.scalarType .definition) ∈ forms .definition := by
    simp [forms, definitions, Role.all]
  have hyields : Yields YieldsNode (Form.ofKind (.scalarType .definition)).symbols
      [.name Keyword.scalar.text, .name "a"] ⟨[(.name, .ofName "a")], []⟩ :=
    .absent _ (.keyword .scalar (.name .name (by simp) (.none _ _ .nil)))
  have hnode := YieldsNode.form hform hyields fun hext => by cases hext
  refine ⟨_, _, ?_, hnode, by simp⟩
  simp [Keyword.isUsable, Token.isUsable_name (by decide : Token.IsName "a".toList)]

/-- Definitions one after the other that fail leave viable tokens behind, which a brace starts only if it
starts the lexemes. -/
theorem readDefinitions_viable {depth loops : Nat} {lexemes rest : List Lexeme} {failure : Failure}
    (hbare : Lexeme.AllBare lexemes)
    (h : readUntil (Goal.definition.read depth) List.isEmpty loops lexemes = .failed failure rest) :
    Between lexemes rest fun tokens => ∃ tail, (∀ token ∈ tail, token.IsUsable) ∧
      YieldsDefinitions (tokens ++ tail) ∧ (firstToken lexemes ≠ some (.punct .braceOpen) →
        (tokens ++ tail).head? ≠ some (.punct .braceOpen)) := by
  have hproductive : Goal.definition.isProductive = true := by decide
  induction loops generalizing lexemes with
  | zero =>
    rw [readUntil] at h
    split at h <;> cases h
  | succ loops ih =>
    rw [readUntil] at h
    split at h
    · cases h
    · rcases Outcome.andThen_eq_failed h with hfirst | ⟨node, l, hnode, hlater⟩
      · obtain ⟨taken, rfl, tail, node, htail, hnode⟩ :=
          Goal.read_viable depth .definition lexemes failure rest (by decide) hproductive hbare hfirst
        have hone {tokens : List Token} {node : Node} (h : YieldsNode .definition tokens node) :
            YieldsDefinitions tokens :=
          ⟨[(tokens, node)], by simp, by simpa using h, by simp, by simp⟩
        -- A definition that fails at its first token is replaced by one that doesn't start with a
        -- brace.
        cases taken with
        | nil =>
          obtain ⟨tokens, node, htokens, hnode, hhead⟩ := exists_scalar
          exact ⟨[], rfl, tokens, htokens, hone hnode, fun _ => hhead⟩
        | cons lexeme taken => exact ⟨_, rfl, tail, htail, hone hnode, id⟩
      · obtain ⟨c, rfl, htaken, hc⟩ := Goal.read_sound depth .definition _ _ _ (by decide) hnode
        obtain ⟨hmarks, hbetween⟩ := htaken.between hbare
        have hopen := Goal.read_definition_open hnode
        obtain ⟨taken, rfl, htokens⟩ := hbetween
        have hfirst : Between (taken ++ l) l fun tokens => tokens = Mark.tokens c.marks :=
          ⟨taken, rfl, htokens⟩
        -- The definition in front was read, and the ones behind it fail as the induction says.
        refine hfirst.append (ih ?_ (Outcome.map_eq_failed hlater)) ?_
        · exact fun lexeme hl => hbare lexeme (List.mem_append_right _ hl)
        · rintro s t rfl ⟨tail, htail, ⟨definitions, -, hdefinitions, hchain, heq⟩, hhead⟩
          have hyields := hc.yields hmarks (n := .definition) rfl
          refine ⟨tail, htail, ⟨(Mark.tokens c.marks, c.node) :: definitions, by simp, ?_, ?_, ?_⟩, ?_⟩
          · simpa [hyields] using hdefinitions
          · refine List.isChain_cons.2 ⟨fun d hd hlacks hbrace => ?_, hchain⟩
            -- A definition without body isn't followed by a brace.
            refine hhead (hopen ((lacksBody_iff _).1 hlacks)) ?_
            obtain ⟨definitions, rfl⟩ := List.head?_eq_some_iff.1 hd
            rw [heq, List.flatMap_cons, List.head?_append, hbrace]
            rfl
          · rw [List.append_assoc, heq, List.flatMap_cons]
          · obtain ⟨mark, marks, hmark, -⟩ := hc.startIn
            have hfirst : firstToken (taken ++ l) = some mark.word.token := by
              rw [hmark] at htokens
              cases taken with
              | nil => cases htokens
              | cons lexeme taken => exact congrArg List.head? htokens
            rw [hfirst, hmark]
            exact id

/-- A document that fails leaves viable tokens behind. -/
theorem TokenStream.readDocument_viable {tokens : List Token} {failure : Failure} {rest : List Lexeme}
    (h : (ofTokens tokens).read .document = .failed failure rest) :
    Between (Lexeme.ofTokens tokens) rest fun taken => ∃ tail node,
      (∀ token ∈ tail, token.IsUsable) ∧ YieldsDocument (taken ++ tail) node := by
  have hbare : Lexeme.AllBare (Lexeme.ofTokens tokens) := by
    intro lexeme hl
    obtain ⟨token, -, rfl⟩ := List.mem_map.1 hl
    rfl
  have hdocument {tokens : List Token} (h : YieldsDefinitions tokens) : ∃ node, YieldsDocument tokens node := by
    obtain ⟨definitions, hne, hyields, hchain, rfl⟩ := h
    exact ⟨_, definitions, hne, hyields, hchain, rfl, rfl⟩
  rcases Outcome.andThen_eq_failed h with h | ⟨nodes, l, hnodes, h⟩
  · refine (readDefinitions_viable hbare h).imp fun taken ⟨tail, htail, hyields, _⟩ => ?_
    obtain ⟨node, hnode⟩ := hdocument hyields
    exact ⟨tail, node, htail, hnode⟩
  · obtain ⟨rfl, children, rfl, hwords, -⟩ := readDefinitions_sound hnodes
    split at h
    · next hempty =>
      injection h with _ hr
      obtain rfl : children = [] := by simpa using hempty
      obtain ⟨more, node, hmore, hnode, -⟩ := exists_scalar
      obtain ⟨document, hdocument⟩ :=
        hdocument ⟨[(more, node)], by simp, by simpa using hnode, by simp, (List.append_nil _).symm⟩
      have hnil : (ofTokens tokens).lexemes = [] := by simpa using hwords
      exact ⟨[], hr ▸ hnil, more, document, hmore, by simpa using hdocument⟩
    · cases h

/-! ### What is behind the offending token -/

/-- A document that fails at a token fails there whatever is behind the token. -/
theorem TokenStream.readDocument_agree {taken : List Token} {token : Token} {s : List Token}
    {failure : Failure}
    (h : (ofTokens (taken ++ token :: s)).read .document =
      .failed failure (Lexeme.ofTokens (token :: s))) (t : List Token) :
    (ofTokens (taken ++ token :: t)).read .document = .failed failure (Lexeme.ofTokens (token :: t)) := by
  have hlexemes (s : List Token) : (ofTokens (taken ++ token :: s)).lexemes =
      Lexeme.ofTokens taken ++ Lexeme.ofTokens (token :: s) := List.map_append
  have hagree {depth depth' : Nat} (hle : depth ≤ depth') :
      Agree (readUntil (Goal.definition.read depth) List.isEmpty depth)
        (readUntil (Goal.definition.read depth') List.isEmpty depth') := by
    refine readUntil_agree (Goal.read_agree hle .definition) (fun {l l'} hfirst => ?_) hle
    rcases eq_nil_or_cons_of_firstToken hfirst with ⟨rfl, rfl⟩ | ⟨_, _, _, _, rfl, rfl, -⟩ <;> rfl
  have hends := (ofTokens (taken ++ token :: t)).readDocument_ends
  rcases Outcome.andThen_eq_failed h with h | ⟨nodes, l, hnodes, h⟩
  · generalize Goal.depthFor (ofTokens (taken ++ token :: s)).lexemes = depth at h
    change (ofTokens (taken ++ token :: t)).readDocument = _
    rw [readDocument] at hends ⊢
    generalize Goal.depthFor (ofTokens (taken ++ token :: t)).lexemes = depth' at hends ⊢
    rw [hlexemes] at h hends ⊢
    -- Both readers do what one with more depth than they have does.
    have hfirst : firstToken (Lexeme.ofTokens (token :: t)) = firstToken (Lexeme.ofTokens (token :: s)) :=
      rfl
    have hfailed := ((hagree (Nat.le_max_left depth depth')).moves (Lexeme.ofTokens taken) hfirst).failed h
    have hne : readUntil (Goal.definition.read depth') List.isEmpty depth'
        (Lexeme.ofTokens taken ++ Lexeme.ofTokens (token :: t)) ≠ .exhausted := by
      intro hexhausted
      rw [hexhausted] at hends
      exact hends rfl
    rw [(hagree (Nat.le_max_right depth depth')).eq_of_ne_exhausted hne] at hfailed
    rw [hfailed]
    rfl
  · -- Where all definitions are read nothing is left.
    obtain ⟨rfl, -⟩ := readDefinitions_sound hnodes
    split at h
    · injection h with _ hr
      cases hr
    · cases h

/-! ### The offending token -/

variable {cs : List Char}

/-- What comes of parsing a text as a document: it fails in front of some of the text's lexemes if its
tokens fail as a document there. -/
private theorem parseDocument_of_read (text : String) :
    (∃ document tree rest, (TokenStream.ofTokens ((TokenStream.ofText text).lexemes.map
        Lexeme.token)).read .document = .done tree rest ∧ parseDocument text = .ok document) ∨
    ∃ failure a rest, (TokenStream.ofText text).lexemes = a ++ rest ∧
      (TokenStream.ofTokens ((TokenStream.ofText text).lexemes.map Lexeme.token)).read .document =
        .failed failure (rest.map Lexeme.bare) ∧
      parseDocument text = .error (failure.diagnostic text.toList rest) := by
  rcases Target.parse_of_read Target.document_mem_parsable text with ⟨document, tree, rest, hdone, hparse, -⟩ |
    ⟨failure, rest, hfailed, hread, hparse⟩
  · exact .inl ⟨document, tree, rest, hdone, hparse⟩
  · have hleaves := TokenStream.read_leaves (TokenStream.ofText text) .document
    rw [hread] at hleaves
    obtain ⟨a, ha⟩ := hleaves
    exact .inr ⟨failure, a, rest, ha.symm, hfailed, hparse⟩

/-- Tokens that follow the grammar are parsed. -/
private theorem exists_parseDocument {node : Node}
    (h : YieldsDocument ((TokenStream.ofList cs).lexemes.map Lexeme.token) node) :
    ∃ document, parseDocument (String.ofList cs) = .ok document := by
  rcases parseDocument_of_read (String.ofList cs) with ⟨document, _, _, -, hparse⟩ |
    ⟨failure, _, rest, -, hfailed, -⟩
  · exact ⟨document, hparse⟩
  · obtain ⟨rest', hdone⟩ := (TokenStream.read_document_iff _ node).2 h
    rw [TokenStream.ofText, String.toList_ofList, hdone] at hfailed
    cases hfailed

/-- Where a document fails at a valid token, or at the end of the text, what is in front of it is sound
and viable. -/
private theorem TokenStream.sound_of_failed {failure : Failure} {a rest : List Lexeme}
    (h : (ofTokens ((ofList cs).lexemes.map Lexeme.token)).read .document =
      .failed failure (rest.map Lexeme.bare))
    (hlexemes : (ofList cs).lexemes = a ++ rest)
    (hvalid : ∀ lexeme ∈ rest.head?, lexeme.token ≠ .invalid) :
    (∀ lexeme ∈ a, lexeme.token.Sound) ∧ ∃ tail node, (∀ token ∈ tail, token.IsUsable) ∧
      YieldsDocument (a.map Lexeme.token ++ tail) node := by
  obtain ⟨taken, htaken, tail, node, htail, hyields⟩ := readDocument_viable h
  rw [← Lexeme.map_bare, hlexemes, List.map_append] at htaken
  obtain rfl := List.append_cancel_right htaken
  have htokens : (a.map Lexeme.bare).map Lexeme.token = a.map Lexeme.token := by
    rw [List.map_map]
    rfl
  rw [htokens] at hyields
  refine ⟨fun lexeme hl => ?_, tail, node, htail, hyields⟩
  have hlexed := Word.lexed_ofText cs
  rw [← map_word_lexemes, hlexemes, List.map_append] at hlexed
  refine hlexed.sound_of_append ?_ ?_ lexeme.word (List.mem_map_of_mem hl)
  · refine List.forall_mem_map.2 fun lexeme hl => ?_
    exact hyields.valid _ (List.mem_append_left _ (List.mem_map_of_mem hl))
  · intro word hword
    rw [List.head?_map] at hword
    obtain ⟨lexeme, hl, rfl⟩ := Option.map_eq_some_iff.1 hword
    exact hvalid lexeme hl

/-- Usable tokens behind a text are those of another text, which goes on behind a line break. -/
private theorem exists_more {before : List Char} {tokens tail : List Token} {node : Node}
    (htokens : ∀ text, (TokenStream.ofList (before ++ '\n' :: text)).lexemes.map Lexeme.token =
      tokens ++ (TokenStream.ofList text).lexemes.map Lexeme.token)
    (htail : ∀ token ∈ tail, token.IsUsable) (h : YieldsDocument (tokens ++ tail) node) :
    ∃ more document, parseDocument (String.ofList (before ++ '\n' :: more)) = .ok document := by
  have hlines := TokenStream.map_token_lines (fun token ht => (htail token ht).1) fun token ht =>
    (htail token ht).2
  have hyields : YieldsDocument ((TokenStream.ofList (before ++ '\n' :: TokenStream.lines tail)).lexemes.map
      Lexeme.token) node := by rwa [htokens, hlines]
  obtain ⟨document, hdocument⟩ := exists_parseDocument hyields
  exact ⟨_, document, hdocument⟩

/-- A token of a text is sound unless it is invalid or a number that lacks the digits of its exponent. -/
private theorem sound_of_mem_lexemes {lexeme : Lexeme} (h : lexeme ∈ (TokenStream.ofList cs).lexemes)
    (hvalid : lexeme.token ≠ .invalid)
    (hnumber : ∀ number ∈ lexeme.token.number?, endsInExponentMark number = false) :
    lexeme.token.Sound := by
  have hword := List.mem_map_of_mem (f := Lexeme.word) h
  rw [TokenStream.map_word_lexemes] at hword
  exact ((Word.lexed_ofText cs).known lexeme.word hword hvalid).sound_iff.2 hnumber

/-- A document fails at the token that its tokens alone fail at. -/
private theorem parseDocument_of_failed {text : String} {failure : Failure} {lexeme : Lexeme}
    {a b : List Lexeme} (hlexemes : (TokenStream.ofText text).lexemes = a ++ lexeme :: b)
    (hfailed : (TokenStream.ofTokens ((TokenStream.ofText text).lexemes.map
      Lexeme.token)).read .document = .failed failure ((lexeme :: b).map Lexeme.bare))
    (hvalid : lexeme.token ≠ .invalid) :
    parseDocument text = .error (.ofCut (.unexpected (some lexeme.token) failure.construct
      failure.expected) (.ofSpan text.toList lexeme.span)) := by
  rcases parseDocument_of_read text with ⟨_, tree, rest, hdone, -⟩ |
    ⟨failure', a', rest, ha', hfailed', hparse⟩
  · rw [hfailed] at hdone
    cases hdone
  · obtain ⟨rfl, hrest⟩ := Outcome.failed.inj (hfailed.symm.trans hfailed')
    have hlength : rest.length = (lexeme :: b).length := by
      simpa using (congrArg List.length hrest).symm
    obtain ⟨-, rfl⟩ := List.append_inj' (ha'.symm.trans hlexemes) hlength
    rw [hparse, Failure.diagnostic, if_neg hvalid]

/-- Whether a text is cut at one of its tokens, or at its end. -/
def Cut.IsAt (cut : Cut) (text : String) : Option Token → Prop
  | none => cut = ⟨text.toList, [], []⟩
  | some token => ∃ lexeme ∈ (TokenStream.ofText text).lexemes, lexeme.token = token ∧
    cut = Cut.ofSpan text.toList lexeme.span ∧
    text.toList = cut.before ++ (cut.inside ++ cut.after)

/-- A text with a syntax error fails at the first token that can't go on: what is in front of it can go
on behind a line break so that it is parsed, and the text up to the token and with it fails with the same
problem at the same position whatever is behind a line break, unless the token is a number that lacks the
digits of its exponent. -/
theorem parseDocument_offending {text : String} {diagnostic : Diagnostic}
    (h : parseDocument text = .error diagnostic) (hsyntactic : diagnostic.category = .syntactic) :
    ∃ found construct expected cut,
      diagnostic = .ofCut (.unexpected found construct expected) cut ∧ cut.IsAt text found ∧
      (∃ more document, parseDocument (String.ofList (cut.before ++ '\n' :: more)) = .ok document) ∧
      ∀ token ∈ found, (∀ number ∈ token.number?, endsInExponentMark number = false) → ∀ more,
        parseDocument (String.ofList (cut.before ++ (cut.inside ++ '\n' :: more))) =
          .error (.ofCut (.unexpected found construct expected) ⟨cut.before, cut.inside, '\n' :: more⟩) := by
  rcases parseDocument_of_read text with ⟨document, _, _, -, hparse⟩ |
    ⟨failure, a, rest, hlexemes, hfailed, hparse⟩
  · cases hparse.symm.trans h
  obtain rfl : failure.diagnostic text.toList rest = diagnostic := Except.error.inj (hparse.symm.trans h)
  cases rest with
  | nil =>
    obtain ⟨hsound, tail, node, htail, hyields⟩ := TokenStream.sound_of_failed hfailed hlexemes (by simp)
    have hcut := Cut.ofSpan_append text.toList [] []
    rw [List.append_nil, List.append_nil] at hcut
    refine ⟨none, failure.construct, failure.expected, ⟨text.toList, [], []⟩, ?_, rfl, ?_, by simp⟩
    · rw [← hcut]
      rfl
    · refine exists_more (fun more => ?_) htail hyields
      rw [List.append_nil] at hlexemes
      exact hlexemes ▸ TokenStream.map_token_append_lineFeed (hlexemes ▸ hsound) more
  | cons lexeme b =>
    -- A token that is no token is a lexical error.
    have hvalid : lexeme.token ≠ .invalid := by
      intro hinvalid
      rw [Failure.diagnostic, if_pos hinvalid] at hsyntactic
      cases hsyntactic
    obtain ⟨hsound, tail, node, htail, hyields⟩ :=
      TokenStream.sound_of_failed hfailed hlexemes (by simpa using hvalid)
    obtain ⟨before, inside, after, hcs, hcut, hbefore, hbehind⟩ :=
      TokenStream.exists_cut hlexemes hsound
    have hmem : lexeme ∈ (TokenStream.ofText text).lexemes :=
      hlexemes ▸ List.mem_append_right _ List.mem_cons_self
    refine ⟨some lexeme.token, failure.construct, failure.expected, ⟨before, inside, after⟩, ?_,
      ⟨lexeme, hmem, rfl, hcut.symm, hcs⟩, exists_more hbefore htail hyields, ?_⟩
    · rw [Failure.diagnostic, if_neg hvalid, hcut]
    · rintro token htoken hnumber more
      obtain rfl := Option.some.inj htoken
      have hwhole := sound_of_mem_lexemes hmem hvalid hnumber
      obtain ⟨a', lexeme', b', hlexemes', hbefore', htoken', hcut'⟩ := hbehind hwhole more
      have htext : (TokenStream.ofText (String.ofList (before ++ (inside ++ '\n' :: more)))).lexemes =
          a' ++ lexeme' :: b' := by
        rw [TokenStream.ofText, String.toList_ofList]
        exact hlexemes'
      -- The tokens of the other text are the same up to the offending one.
      have hagain : (TokenStream.ofTokens ((TokenStream.ofText (String.ofList
          (before ++ (inside ++ '\n' :: more)))).lexemes.map Lexeme.token)).read .document =
            .failed failure ((lexeme' :: b').map Lexeme.bare) := by
        rw [hlexemes, List.map_append, List.map_cons, Lexeme.map_bare] at hfailed
        rw [htext, List.map_append, List.map_cons, hbefore', htoken', Lexeme.map_bare, List.map_cons,
          htoken']
        exact TokenStream.readDocument_agree hfailed _
      rw [parseDocument_of_failed htext hagain (htoken' ▸ hvalid), String.toList_ofList, hcut', htoken']

/-- A closing bracket where a type should be. -/
theorem parseDocument_offending_bracket :
    ∃ found construct expected cut,
      Diagnostic.ofCut (.unexpected (some (.punct .bracketClose)) .type none)
          ⟨"query ($a: ".toList, [']'], []⟩ = .ofCut (.unexpected found construct expected) cut ∧
        cut.IsAt "query ($a: ]" found ∧
      (∃ more document, parseDocument (String.ofList (cut.before ++ '\n' :: more)) = .ok document) ∧
      ∀ token ∈ found, (∀ number ∈ token.number?, endsInExponentMark number = false) → ∀ more,
        parseDocument (String.ofList (cut.before ++ (cut.inside ++ '\n' :: more))) =
          .error (.ofCut (.unexpected found construct expected) ⟨cut.before, cut.inside, '\n' :: more⟩) :=
  parseDocument_offending (by decide +kernel) rfl

/-- A number whose exponent lacks digits is a token that no definition starts with, but characters that
form no token as soon as a line break stands in place of the sign. -/
theorem parseDocument_offending_exponentMark :
    parseDocument "1e+" = .error (.ofCut (.unexpected (some (.int "1e")) .definition none)
        ⟨[], "1e".toList, ['+']⟩) ∧
      parseDocument "1e\n" = .error (.invalidCharacters ⟨[], "1e".toList, ['\n']⟩) := by
  decide

end GraphQLTree
