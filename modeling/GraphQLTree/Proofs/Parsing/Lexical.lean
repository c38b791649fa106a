import GraphQLTree.Proofs.Grammar.Definitions
import GraphQLTree.Proofs.Grammar.Rest
import GraphQLTree.Proofs.Parsing.Target
import GraphQLTree.Proofs.Token.Lexer
import GraphQLTree.Proofs.Token.Places

/-!
# Lexical errors

A reader never goes past characters that form no token, and reports them only where it stops. So a lexical
error of a parser is always the one that tokenizing the text gives, and a document with such characters
isn't parsed: either the parser stops in front of them, or at a token before them (`parse_lexical`).
-/

namespace GraphQLTree

/-! ### The first invalid lexeme -/

/-- The lexemes of a text are its tokens but for comments. -/
theorem TokenStream.filter_places (cs : List Char) :
    (ofList cs).lexemes.map (fun lexeme => (lexeme.token, lexeme.span)) =
      (Scrap.places cs).filter fun place => !place.1.isComment := by
  rw [places_ofList, Scrap.places, List.filter_map]
  rfl

/-- What tokenizing a text reports is its first invalid lexeme. -/
theorem tokenize_snd (text : String) : (tokenize text).2 =
    ((TokenStream.ofText text).lexemes.find? fun lexeme => lexeme.token = .invalid).map fun lexeme =>
      .invalidCharacters (.ofSpan text.toList lexeme.span) := by
  -- Invalid characters are no comment, so that they are the same among the lexemes.
  have hcomment : (fun place : Token × Span => decide ((!place.1.isComment) = true ∧
      decide (place.1 = .invalid) = true)) = fun place => decide (place.1 = .invalid) := by
    funext ⟨token, span⟩
    cases token <;> rfl
  have hplaces : (Scrap.places text.toList).find? (fun place => place.1 = .invalid) =
      ((TokenStream.ofText text).lexemes.find? fun lexeme => lexeme.token = .invalid).map
        fun lexeme => (lexeme.token, lexeme.span) := by
    have hlexemes := congrArg (List.find? fun place => place.1 = .invalid)
      (TokenStream.filter_places text.toList)
    rw [List.find?_map, List.find?_filter, hcomment] at hlexemes
    exact hlexemes.symm
  have htokenize : (tokenize text).2 = ((Scrap.places text.toList).find? fun place =>
      place.1 = .invalid).map fun place => .invalidCharacters (.ofSpan text.toList place.2) := by
    rw [tokenize, validTokens_eq_takeWhile, Scrap.places, List.find?_map, Option.map_map]
    rfl
  rw [htokenize, hplaces, Option.map_map]
  rfl

theorem TokenStream.mem_places {cs : List Char} {lexeme : Lexeme} (h : lexeme ∈ (ofList cs).lexemes) :
    (lexeme.token, lexeme.span) ∈ Scrap.places cs :=
  (List.mem_filter.1 (filter_places cs ▸ List.mem_map_of_mem h)).1

/-- A lexeme starts behind the starts of those in front of it. -/
theorem TokenStream.start_lt {cs : List Char} {a b : List Lexeme} {lexeme : Lexeme}
    (h : (ofList cs).lexemes = a ++ lexeme :: b) :
    ∀ other ∈ a, other.span.start < lexeme.span.start := by
  intro other hother
  have hmem := mem_places (h ▸ List.mem_append_left _ hother)
  have hlt := ((Scrap.tiles_places cs).lt_of_mem _ hmem).2
  have hpairwise := (Scrap.tiles_places cs).pairwise.filter fun place => !place.1.isComment
  rw [← filter_places, h, List.map_append, List.pairwise_append] at hpairwise
  have hle := hpairwise.2.2 _ (List.mem_map_of_mem hother) _ (List.mem_map_of_mem List.mem_cons_self)
  exact Nat.lt_of_lt_of_le hlt hle

/-! ### Parsing -/

/-- A document that is read leaves nothing. -/
theorem TokenStream.readDocument_rest {stream : TokenStream} {node : Node} {rest : List Lexeme}
    (h : stream.readDocument = .done node rest) : rest = [] := by
  obtain ⟨nodes, l, hnodes, h⟩ := Outcome.andThen_eq_done h
  obtain ⟨rfl, -⟩ := readDefinitions_sound hnodes
  split at h
  · cases h
  · injection h with _ hrest
    exact hrest.symm

/-- A text is parsed as a target or has an error behind valid tokens. A document that is parsed has valid
tokens only. -/
theorem Target.parse_passes {target : Target} (htarget : target ∈ parsable) (text : String) :
    (∃ node, target.parse text = .ok node ∧ (target = .document →
      ∀ lexeme ∈ (TokenStream.ofText text).lexemes, lexeme.token ≠ .invalid)) ∨
    ∃ (failure : Failure) (taken rest : List Lexeme),
      (TokenStream.ofText text).lexemes = taken ++ rest ∧
      (∀ lexeme ∈ taken, lexeme.token ≠ .invalid) ∧
      target.parse text = .error (failure.diagnostic text.toList rest) := by
  have hends := TokenStream.read_ends htarget (TokenStream.ofText text)
  have hpasses := (TokenStream.ofText text).read_passes (P := (· ≠ .invalid)) (fun _ h => h) target
  have hvalid {taken : List Lexeme} (h : ∀ token ∈ taken.map Lexeme.token, token ≠ .invalid)
      (lexeme : Lexeme) (hl : lexeme ∈ taken) : lexeme.token ≠ .invalid :=
    h _ (List.mem_map_of_mem hl)
  unfold parse
  cases hread : (TokenStream.ofText text).read target with
  | done node rest =>
    refine .inl ⟨node, rfl, ?_⟩
    rintro rfl
    rw [hread] at hpasses
    obtain ⟨taken, hlexemes, htaken⟩ := hpasses
    obtain rfl := TokenStream.readDocument_rest hread
    rw [hlexemes, List.append_nil]
    exact hvalid htaken
  | failed failure rest =>
    rw [hread] at hpasses
    obtain ⟨taken, hlexemes, htaken⟩ := hpasses
    exact .inr ⟨failure, taken, rest, hlexemes, hvalid htaken, rfl⟩
  | exhausted => exact absurd hread hends

/-- A lexical error of a parser is what tokenizing the text gives. -/
theorem Target.tokenize_of_parse {target : Target} (htarget : target ∈ parsable) {text : String}
    {diagnostic : Diagnostic} (h : target.parse text = .error diagnostic)
    (hlexical : diagnostic.category = .lexical) : (tokenize text).2 = some diagnostic := by
  rcases parse_passes htarget text with ⟨node, hparse, -⟩ |
    ⟨failure, taken, rest, hlexemes, htaken, hparse⟩
  · cases hparse.symm.trans h
  · obtain rfl := Except.error.inj (hparse.symm.trans h)
    cases rest with
    | nil => cases hlexical
    | cons lexeme rest =>
      by_cases hinvalid : lexeme.token = .invalid
      · have hfirst : taken.find? (fun lexeme => lexeme.token = .invalid) = none := by
          simpa using htaken
        rw [tokenize_snd, hlexemes, List.find?_append, hfirst, Option.none_or,
          List.find?_cons_of_pos (by simpa using hinvalid), Option.map_some, Failure.diagnostic,
          if_pos hinvalid]
      · rw [Failure.diagnostic, if_neg hinvalid] at hlexical
        cases hlexical

/-- A valid lexeme behind valid ones lies in front of the first invalid one. -/
private theorem mem_of_valid {taken before rest after : List Lexeme} {lexeme bad : Lexeme}
    (h : taken ++ lexeme :: rest = before ++ bad :: after)
    (htaken : ∀ lexeme ∈ taken, lexeme.token ≠ .invalid) (hvalid : lexeme.token ≠ .invalid)
    (hbad : bad.token = .invalid) : lexeme ∈ before := by
  rcases List.append_eq_append_iff.1 h with ⟨more, rfl, hmore⟩ | ⟨more, rfl, hmore⟩
  · cases more with
    | nil =>
      obtain ⟨rfl, -⟩ := List.cons.inj hmore
      exact absurd hbad hvalid
    | cons first more =>
      obtain ⟨rfl, -⟩ := List.cons.inj hmore
      exact List.mem_append_right _ List.mem_cons_self
  · cases more with
    | nil =>
      obtain ⟨rfl, -⟩ := List.cons.inj hmore
      exact absurd hbad hvalid
    | cons first more =>
      obtain ⟨rfl, -⟩ := List.cons.inj hmore
      exact absurd hbad (htaken _ (List.mem_append_right _ List.mem_cons_self))

/-- Where tokenizing a text gives an error, parsing it as a document does so, too: the same error, or a
syntax error at a token in front of it. -/
theorem parseDocument_of_tokenize {text : String} {diagnostic : Diagnostic}
    (h : (tokenize text).2 = some diagnostic) :
    ∃ bad, (.invalid, bad) ∈ Scrap.places text.toList ∧
      diagnostic = .invalidCharacters (.ofSpan text.toList bad) ∧
      (parseDocument text = .error diagnostic ∨
        ∃ place ∈ Scrap.places text.toList, place.2.start < bad.start ∧ ∃ construct expected,
          parseDocument text = .error (.ofCut (.unexpected (some place.1) construct expected)
            (.ofSpan text.toList place.2))) := by
  obtain ⟨bad, hfind, hdiagnostic⟩ := Option.map_eq_some_iff.1 (tokenize_snd text ▸ h)
  obtain ⟨hbad, before, after, hlexemes, -⟩ := List.find?_eq_some_iff_append.1 hfind
  have hbad : bad.token = .invalid := of_decide_eq_true hbad
  have hmem : bad ∈ (TokenStream.ofText text).lexemes := List.mem_of_find?_eq_some hfind
  refine ⟨bad.span, hbad ▸ TokenStream.mem_places hmem, hdiagnostic.symm, ?_⟩
  rcases Target.parse_passes Target.document_mem_parsable text with ⟨node, -, hvalid⟩ |
    ⟨failure, taken, rest, htext, htaken, hparse⟩
  · exact absurd hbad (hvalid rfl bad hmem)
  · cases rest with
    | nil =>
      rw [List.append_nil] at htext
      exact absurd hbad (htaken bad (htext ▸ hmem))
    | cons lexeme rest =>
      by_cases hinvalid : lexeme.token = .invalid
      · -- The parser stops at invalid characters, so that its error is the one of the tokens.
        have hlexical : (failure.diagnostic text.toList (lexeme :: rest)).category = .lexical := by
          rw [Failure.diagnostic, if_pos hinvalid]
          rfl
        have hagain := Target.tokenize_of_parse Target.document_mem_parsable hparse hlexical
        rw [h] at hagain
        exact .inl (Option.some.inj hagain ▸ hparse)
      · have hbefore := mem_of_valid (htext.symm.trans hlexemes) htaken hinvalid hbad
        have hmem : lexeme ∈ (TokenStream.ofText text).lexemes :=
          htext ▸ List.mem_append_right _ List.mem_cons_self
        refine .inr ⟨_, TokenStream.mem_places hmem, TokenStream.start_lt hlexemes lexeme hbefore,
          failure.construct, failure.expected, ?_⟩
        rw [Failure.diagnostic, if_neg hinvalid] at hparse
        exact hparse

/-- A lexical error of a text parsed as anything is the error that tokenizing the text gives. Where
tokenizing gives an error, parsing the text as a document fails with that error or with a syntax error at a
token that starts before it. Where it gives none, there is no lexical error in parsing. -/
theorem parse_lexical (text : String) :
    (∀ target ∈ Target.parsable, ∀ diagnostic, target.parse text = .error diagnostic →
      diagnostic.category = .lexical → (tokenize text).2 = some diagnostic) ∧
    (∀ diagnostic, (tokenize text).2 = some diagnostic →
      ∃ bad, (.invalid, bad) ∈ Scrap.places text.toList ∧
        diagnostic = .invalidCharacters (.ofSpan text.toList bad) ∧
        (parseDocument text = .error diagnostic ∨
          ∃ place ∈ Scrap.places text.toList, place.2.start < bad.start ∧ ∃ construct expected,
            parseDocument text = .error (.ofCut (.unexpected (some place.1) construct expected)
              (.ofSpan text.toList place.2)))) ∧
    ((tokenize text).2 = none → ∀ target ∈ Target.parsable, ∀ diagnostic,
      target.parse text = .error diagnostic → diagnostic.category ≠ .lexical) := by
  refine ⟨fun target htarget diagnostic => Target.tokenize_of_parse htarget,
    fun diagnostic => parseDocument_of_tokenize, fun hnone target htarget diagnostic hparse hlexical => ?_⟩
  have hsome := Target.tokenize_of_parse htarget hparse hlexical
  rw [hnone] at hsome
  cases hsome

/-- A character that forms no token inside a list. -/
theorem parse_lexical_list :
    Target.goal (.value .constant) ∈ Target.parsable ∧
      (Target.goal (.value .constant)).parse "[é ?" =
        .error (.invalidCharacters ⟨['['], ['é'], " ?".toList⟩) ∧
      (tokenize "[é ?").2 = some (.invalidCharacters ⟨['['], ['é'], " ?".toList⟩) := by
  have hparse : (Target.goal (.value .constant)).parse "[é ?" =
      .error (.invalidCharacters ⟨['['], ['é'], " ?".toList⟩) := by
    decide +kernel
  exact ⟨by decide, hparse, (parse_lexical "[é ?").1 _ (by decide) _ hparse rfl⟩

end GraphQLTree
