import GraphQLTree.Proofs.Token.Words

/-!
# Tokens and words

The words of a text have its tokens other than comments (`Word.tokens_ofScraps`), and its comments in
their order (`Word.comments_ofScraps`). A text without lexical error is one whose words are all valid,
and `tokenize` then gives everything that there is (`tokenize_eq_none_iff`).
-/

namespace GraphQLTree

namespace Token

/-- The texts of the comments among some tokens. -/
def commentTexts (tokens : List Token) : List String :=
  tokens.filterMap fun token =>
    match token with
    | comment text => some text
    | _ => none

/-- The tokens other than comments. -/
def significant (tokens : List Token) : List Token :=
  tokens.filter fun token => !token.isComment

theorem isComment_eq_false {token : Token} (h : ∀ text, token ≠ comment text) :
    token.isComment = false := by
  cases token with
  | comment text => exact absurd rfl (h text)
  | _ => rfl

theorem significant_cons {token : Token} (h : ∀ text, token ≠ comment text)
    (tokens : List Token) : significant (token :: tokens) = token :: significant tokens := by
  simp [significant, isComment_eq_false h]

theorem significant_comment (text : String) (tokens : List Token) :
    significant (comment text :: tokens) = significant tokens := rfl

theorem commentTexts_cons {token : Token} (h : ∀ text, token ≠ comment text)
    (tokens : List Token) : commentTexts (token :: tokens) = commentTexts tokens := by
  cases token with
  | comment text => exact absurd rfl (h text)
  | _ => rfl

theorem commentTexts_comment (text : String) (tokens : List Token) :
    commentTexts (comment text :: tokens) = text :: commentTexts tokens := rfl

end Token

/-! ### Words -/

namespace Word

/-- The words of scraps have their tokens other than comments. -/
theorem tokens_ofScraps (pending : List Comment) (scraps : List Scrap) :
    (ofScraps pending scraps).1.map token = Token.significant (scraps.map Scrap.token) := by
  induction pending, scraps using ofScraps_induction with
  | nil pending => rfl
  | comment pending gap text written rest ih =>
    rw [ofScraps_comment, ih]
    rfl
  | inline pending before token written gap text written' rest hc hv hgap ih =>
    rw [ofScraps_inline _ hc hv hgap, List.map_cons, List.map_cons, Token.significant_cons hc,
      Token.significant_comment, ← ih]
    rfl
  | token pending before token written rest hc h ih =>
    rw [ofScraps_token _ hc h, List.map_cons, Token.significant_cons hc, ← ih]
    rfl

/-- The comments of words, and those behind the last word, are the comments of scraps in order. -/
theorem comments_ofScraps (pending : List Comment) (scraps : List Scrap) :
    (((ofScraps pending scraps).1.flatMap comments) ++ (ofScraps pending scraps).2).map
        Comment.text =
      pending.map Comment.text ++ Token.commentTexts (scraps.map Scrap.token) := by
  induction pending, scraps using ofScraps_induction with
  | nil pending => exact (List.append_nil _).symm
  | comment pending gap text written rest ih =>
    rw [ofScraps_comment, ih, List.map_cons, Token.commentTexts_comment, List.map_append]
    simp
  | inline pending before token written gap text written' rest hc hv hgap ih =>
    rw [ofScraps_inline _ hc hv hgap, List.map_cons, List.map_cons, Token.commentTexts_cons hc,
      Token.commentTexts_comment]
    simp only [put, List.flatMap_cons, List.map_append, List.append_assoc] at ih ⊢
    rw [ih]
    simp
  | token pending before token written rest hc h ih =>
    rw [ofScraps_token _ hc h, List.map_cons, Token.commentTexts_cons hc]
    simp only [put, List.flatMap_cons, List.map_append, List.append_assoc] at ih ⊢
    rw [ih]
    simp

end Word

/-! ### Tokenizing -/

/-- There is no diagnostic if and only if no scrap is invalid, and all tokens are given then. -/
theorem validTokens_eq (cs : List Char) (scraps : List (Scrap × Span)) :
    ((validTokens cs scraps).2 = none ↔ ∀ scrap ∈ scraps, scrap.1.token ≠ .invalid) ∧
      ((validTokens cs scraps).2 = none →
        (validTokens cs scraps).1 = scraps.map fun scrap => scrap.1.token) := by
  induction scraps with
  | nil => simp [validTokens]
  | cons scrap scraps ih =>
    obtain ⟨scrap, span⟩ := scrap
    rw [validTokens]
    by_cases h : scrap.token = .invalid
    · rw [if_pos h]
      simp [h]
    · rw [if_neg h]
      refine ⟨?_, fun hnone => by rw [List.map_cons, ← ih.2 hnone]⟩
      simp [h, ih.1]

private theorem map_token_located (cs : List Char) :
    ((Scrap.located cs).map fun scrap => scrap.1.token) = (Scrap.scanAll cs).map Scrap.token := by
  have hfst : (Scrap.located cs).map Prod.fst = Scrap.scanAll cs :=
    TokenStream.map_fst_locateFrom 0 (Scrap.scanAll cs)
  rw [← hfst, List.map_map]
  rfl

/-- The tokens of the words of a text. -/
theorem Word.tokens_ofText (cs : List Char) :
    (Word.ofText cs).1.map Word.token =
      Token.significant ((Scrap.scanAll cs).map Scrap.token) :=
  Word.tokens_ofScraps [] _

/-- A text has no lexical error if and only if no word of it is invalid. -/
theorem tokenize_eq_none_iff (text : String) :
    (tokenize text).2 = none ↔ ∀ word ∈ (Word.ofText text.toList).1, word.token ≠ .invalid := by
  have hinvalid : (∀ token ∈ (Word.ofText text.toList).1.map Word.token, token ≠ .invalid) ↔
      ∀ token ∈ (Scrap.scanAll text.toList).map Scrap.token, token ≠ .invalid := by
    rw [Word.tokens_ofText]
    refine ⟨fun h token ht hinvalid => ?_, fun h token ht => h token (List.mem_filter.1 ht).1⟩
    exact h token (List.mem_filter.2 ⟨ht, by rw [hinvalid]; rfl⟩) hinvalid
  rw [List.forall_mem_map] at hinvalid
  rw [hinvalid, ← map_token_located, List.forall_mem_map]
  exact (validTokens_eq _ _).1

/-- The tokens of a text without lexical error. -/
theorem tokens_of_tokenize {text : String} (h : (tokenize text).2 = none) :
    (tokenize text).1 = (Scrap.scanAll text.toList).map Scrap.token := by
  rw [← map_token_located]
  exact (validTokens_eq _ _).2 h

/-- The tokens of the words of a text without lexical error. -/
theorem significant_tokenize {text : String} (h : (tokenize text).2 = none) :
    Token.significant (tokenize text).1 = (Word.ofText text.toList).1.map Word.token := by
  rw [tokens_of_tokenize h, Word.tokens_ofText]

/-- The comments of a text without lexical error are those of its words and those behind them. -/
theorem commentTexts_tokenize {text : String} (h : (tokenize text).2 = none) :
    Token.commentTexts (tokenize text).1 =
      ((Word.ofText text.toList).1.flatMap Word.comments ++ (Word.ofText text.toList).2).map
        Comment.text := by
  rw [tokens_of_tokenize h]
  exact (Word.comments_ofScraps [] _).symm

/-- The tokens of the lexemes of a text without lexical error. -/
theorem map_token_lexemes {text : String} (h : (tokenize text).2 = none) :
    (TokenStream.ofText text).lexemes.map Lexeme.token = Token.significant (tokenize text).1 := by
  have hword := TokenStream.map_word_lexemes text.toList
  rw [significant_tokenize h, ← hword, List.map_map]
  rfl

/-! ### Sound tokens -/

/-- The first words are sound if neither they nor the next word are invalid. -/
theorem Word.Lexed.sound_of_append {a b : List Word} (h : Lexed (a ++ b))
    (hvalid : ∀ word ∈ a, word.token ≠ .invalid) (hnext : ∀ word ∈ b.head?, word.token ≠ .invalid) :
    ∀ word ∈ a, word.token.Sound := by
  induction a with
  | nil => simp
  | cons word a ih =>
    obtain ⟨htoken, -, hwords⟩ := h
    obtain ⟨hword, hvalid⟩ := List.forall_mem_cons.1 hvalid
    refine List.forall_mem_cons.2 ⟨?_, ih hwords hvalid⟩
    rcases htoken with hinvalid | hsound | ⟨-, next, hhead, hinvalid⟩
    · exact absurd hinvalid hword
    · exact hsound
    · refine absurd hinvalid ?_
      cases a with
      | nil => exact hnext next hhead
      | cons word' a => exact hvalid next (List.mem_of_head? hhead)

/-- The tokens of words are known but for invalid ones. -/
theorem Word.Lexed.known {words : List Word} (h : Lexed words) :
    ∀ word ∈ words, word.token ≠ .invalid → word.token.Known := by
  induction words with
  | nil => simp
  | cons word words ih =>
    obtain ⟨htoken, -, hwords⟩ := h
    exact List.forall_mem_cons.2
      ⟨fun hvalid => (htoken.resolve_left hvalid).imp id And.left, ih hwords⟩

/-- Words are sound if none of them is invalid. -/
theorem Word.Lexed.sound {words : List Word} (h : Lexed words)
    (hvalid : ∀ word ∈ words, word.token ≠ .invalid) : ∀ word ∈ words, word.token.Sound := by
  have happend : Lexed (words ++ []) := by rwa [List.append_nil]
  exact happend.sound_of_append hvalid (by simp)

/-- The tokens of a text without lexical error are sound. -/
theorem Token.sound_of_tokenize {text : String} (h : (tokenize text).2 = none) :
    ∀ token ∈ significant (tokenize text).1, token.Sound := by
  rw [significant_tokenize h, List.forall_mem_map]
  exact (Word.lexed_ofText text.toList).sound ((tokenize_eq_none_iff text).1 h)

end GraphQLTree
