import GraphQLTree.Diagnostic.Snippet
import GraphQLTree.Proofs.Token.Prefix
import GraphQLTree.Proofs.Token.Significant

/-!
# Where lexemes lie

A lexeme has the span of the scrap that it comes from (`TokenStream.exists_scrap`), and cutting the text
there gives the characters of that scrap. A text may be cut off in front of a lexeme, or behind it, and
go on behind a line break: the lexemes up to the cut are still there, in their places
(`TokenStream.exists_cut`).
-/

namespace GraphQLTree

/-! ### Bytes -/

namespace Text

/-- A text is cut in two by the length of its first part. -/
theorem splitBytes_append (a b : List Char) : splitBytes (utf8Length a) (a ++ b) = (a, b) := by
  induction a with
  | nil => cases b <;> rfl
  | cons c a ih =>
    obtain ⟨n, hn⟩ : ∃ n, utf8Length (c :: a) = n + 1 :=
      ⟨utf8Length (c :: a) - 1, by have := c.utf8Size_pos; simp [utf8Length]; omega⟩
    have hsize : n + 1 - c.utf8Size = utf8Length a := by
      rw [← hn]
      simp [utf8Length]
    rw [hn, List.cons_append, splitBytes, hsize, ih]

end Text

/-- The cut at a span that lies behind a text. -/
theorem Cut.ofSpan_append (before inside after : List Char) :
    Cut.ofSpan (before ++ (inside ++ after))
        ⟨Text.utf8Length before, Text.utf8Length before + Text.utf8Length inside⟩ =
      ⟨before, inside, after⟩ := by
  simp only [ofSpan, Text.splitBytes_append, Nat.add_sub_cancel_left]

/-! ### Places -/

/-- A scrap behind some characters lies behind its gap too. -/
theorem Scrap.span_utf8Length (before : List Char) (scrap : Scrap) :
    scrap.span (Text.utf8Length before) =
      ⟨Text.utf8Length (before ++ scrap.gap), Text.utf8Length (before ++ scrap.gap ++ scrap.text)⟩ := by
  simp only [span, Text.utf8Length_append]

theorem Scrap.locateFrom_append (offset : Nat) (a b : List Scrap) :
    locateFrom offset (a ++ b) =
      locateFrom offset a ++ locateFrom (offset + Text.utf8Length (flat a)) b := by
  induction a generalizing offset with
  | nil => rfl
  | cons scrap a ih =>
    have hstop : (scrap.span offset).stop + Text.utf8Length (flat a) =
        offset + Text.utf8Length (flat (scrap :: a)) := by
      simp only [span, flat, List.flatMap_cons, Text.utf8Length_append]
      omega
    rw [List.cons_append, locateFrom, locateFrom, ih, hstop, List.cons_append]

namespace TokenStream

/-- The tokens of a stream lie where they were scanned. -/
private theorem places_group (pending : List Comment) (scraps : List Scrap) (offset : Nat) :
    (group pending (Scrap.locateFrom offset scraps)).1.map (fun lexeme => (lexeme.token, lexeme.span)) =
      ((Scrap.locateFrom offset scraps).filter fun located => !located.1.token.isComment).map
        fun located => (located.1.token, located.2) := by
  induction pending, scraps using Word.ofScraps_induction generalizing offset with
  | nil pending => rfl
  | comment pending gap text written rest ih =>
    rw [Scrap.locateFrom, group_comment, ih]
    rfl
  | inline pending before token written gap text written' rest hc hv hgap ih =>
    rw [Scrap.locateFrom, Scrap.locateFrom, group_inline _ hc hv hgap, put, List.map_cons, ih,
      List.filter_cons_of_pos (by simp [Token.isComment_eq_false hc])]
    rfl
  | token pending before token written rest hc h ih =>
    rw [Scrap.locateFrom, group_token _ hc (by rwa [map_fst_locateFrom]), put, List.map_cons, ih,
      List.filter_cons_of_pos (by simp [Token.isComment_eq_false hc])]
    rfl

variable {cs : List Char}

theorem places_ofList (cs : List Char) :
    (ofList cs).lexemes.map (fun lexeme => (lexeme.token, lexeme.span)) =
      ((Scrap.located cs).filter fun located => !located.1.token.isComment).map
        fun located => (located.1.token, located.2) :=
  places_group [] (Scrap.scanAll cs) 0

/-- The tokens of a stream. -/
theorem map_token_ofList (cs : List Char) :
    (ofList cs).lexemes.map Lexeme.token = Token.significant ((Scrap.scanAll cs).map Scrap.token) := by
  rw [← Word.tokens_ofText, ← map_word_lexemes, List.map_map]
  rfl

/-- Where a scrap lies is up to the scraps in front of it. -/
private theorem span_of_located {a b : List (Scrap × Span)} {located : Scrap × Span}
    (h : Scrap.located cs = a ++ located :: b) :
    Scrap.scanAll cs = a.map Prod.fst ++ located.1 :: b.map Prod.fst ∧
      located.2 = located.1.span (Text.utf8Length (Scrap.flat (a.map Prod.fst))) := by
  have hscraps : Scrap.scanAll cs = a.map Prod.fst ++ located.1 :: b.map Prod.fst := by
    rw [← map_fst_locateFrom 0 (Scrap.scanAll cs), ← Scrap.located, h, List.map_append,
      List.map_cons]
  rw [Scrap.located, hscraps, Scrap.locateFrom_append, Scrap.locateFrom] at h
  have hlength : (Scrap.locateFrom 0 (a.map Prod.fst)).length = a.length := by
    simpa using congrArg List.length (map_fst_locateFrom 0 (a.map Prod.fst))
  obtain ⟨hhead, -⟩ := List.cons.inj (List.append_inj h hlength).2
  refine ⟨hscraps, ?_⟩
  rw [← hhead, Nat.zero_add]

/-- The tokens of scraps other than comments. -/
private theorem significant_map_token (located : List (Scrap × Span)) :
    Token.significant ((located.map Prod.fst).map Scrap.token) =
      ((located.filter fun located => !located.1.token.isComment).map
        fun located => (located.1.token, located.2)).map Prod.fst := by
  rw [Token.significant, List.map_map, List.map_map, List.filter_map]
  rfl

/-- A lexeme comes from a scrap, behind the scraps of the lexemes in front of it. -/
theorem exists_scrap {a b : List Lexeme} {lexeme : Lexeme} (h : (ofList cs).lexemes = a ++ lexeme :: b) :
    ∃ before scrap after, Scrap.scanAll cs = before ++ scrap :: after ∧
      Token.significant (before.map Scrap.token) = a.map Lexeme.token ∧
      scrap.token = lexeme.token ∧ scrap.token.isComment = false ∧
      lexeme.span = scrap.span (Text.utf8Length (Scrap.flat before)) := by
  have hplaces := places_ofList cs
  rw [h, List.map_append, List.map_cons] at hplaces
  obtain ⟨l, m, hfilter, hl, hm⟩ := List.map_eq_append_iff.1 hplaces.symm
  obtain ⟨located, m, rfl, hplace, -⟩ := List.map_eq_cons_iff.1 hm
  obtain ⟨before, rest, hlocated, hbefore, hrest⟩ := List.filter_eq_append_iff.1 hfilter
  obtain ⟨comments, after, rfl, hcomments, hc, -⟩ := List.filter_eq_cons_iff.1 hrest
  rw [← List.append_assoc] at hlocated
  obtain ⟨hscraps, hspan⟩ := span_of_located hlocated
  obtain ⟨htoken, hspan'⟩ := Prod.mk.inj hplace
  refine ⟨_, located.1, _, hscraps, ?_, htoken, by simpa using hc, by rw [← hspan', hspan]⟩
  have hnone : comments.filter (fun located => !located.1.token.isComment) = [] :=
    List.filter_eq_nil_iff.2 hcomments
  rw [significant_map_token, List.filter_append, hbefore, hnone, List.append_nil, hl, List.map_map]
  rfl

/-- A scrap other than a comment becomes a lexeme, behind the lexemes of the scraps in front of it. -/
theorem exists_lexeme {before after : List Scrap} {scrap : Scrap}
    (h : Scrap.scanAll cs = before ++ scrap :: after) (hc : scrap.token.isComment = false) :
    ∃ a lexeme b, (ofList cs).lexemes = a ++ lexeme :: b ∧
      a.map Lexeme.token = Token.significant (before.map Scrap.token) ∧
      lexeme.token = scrap.token ∧
      lexeme.span = scrap.span (Text.utf8Length (Scrap.flat before)) := by
  have hplaces := places_ofList cs
  rw [← map_fst_locateFrom 0 (Scrap.scanAll cs), ← Scrap.located] at h
  obtain ⟨l, m, hlocated, rfl, hm⟩ := List.map_eq_append_iff.1 h
  obtain ⟨located, m, rfl, rfl, -⟩ := List.map_eq_cons_iff.1 hm
  obtain ⟨-, hspan⟩ := span_of_located hlocated
  rw [hlocated, List.filter_append, List.filter_cons_of_pos (by simp [hc]), List.map_append,
    List.map_cons] at hplaces
  obtain ⟨a, rest, hlexemes, ha, hrest⟩ := List.map_eq_append_iff.1 hplaces
  obtain ⟨lexeme, b, rfl, hplace, -⟩ := List.map_eq_cons_iff.1 hrest
  obtain ⟨htoken, hspan'⟩ := Prod.mk.inj hplace
  refine ⟨a, lexeme, b, hlexemes, ?_, htoken, hspan'.trans hspan⟩
  rw [significant_map_token, ← ha, List.map_map]
  rfl

/-! ### Cutting a text at a lexeme -/

/-- Scraps are sound if those other than comments are. -/
theorem sound_of_significant {before after : List Scrap}
    (h : Scrap.scanAll cs = before ++ after)
    (hsound : ∀ token ∈ Token.significant (before.map Scrap.token), token.Sound) :
    ∀ scrap ∈ before, scrap.token.Sound := by
  intro scrap hscrap
  cases htoken : scrap.token with
  | comment text =>
    have hlexed := Word.lexedScraps_scanAll cs
    obtain ⟨a, b, rfl⟩ := List.append_of_mem hscrap
    rw [h, List.append_assoc, List.cons_append] at hlexed
    have hcomment := (Word.lexedScraps_append hlexed).1
    rw [htoken] at hcomment
    simpa [Token.not_isBareNumber_comment] using hcomment
  | _ =>
    rw [← htoken]
    exact hsound _ (List.mem_filter.2 ⟨List.mem_map_of_mem hscrap, by rw [htoken]; rfl⟩)

/-- Behind sound tokens, and ignored characters, a text may be cut off and go on behind a line break. -/
private theorem map_token_lineFeed {before : List Scrap} {gap more : List Char}
    (h : Scrap.Cuts cs before (gap ++ more)) (hsound : ∀ scrap ∈ before, scrap.token.Sound)
    (hgap : ∀ c ∈ gap, Token.isIgnored c = true) (text : List Char) :
    (ofList (Scrap.flat before ++ (gap ++ '\n' :: text))).lexemes.map Lexeme.token =
      Token.significant (before.map Scrap.token) ++ (ofList text).lexemes.map Lexeme.token := by
  rw [map_token_ofList, map_token_ofList, h.scanAll_lineFeed hsound hgap, List.map_append,
    Scrap.map_token_modifyHead, Token.significant, List.filter_append]
  rfl

/-- A text of sound tokens may go on behind a line break. -/
theorem map_token_append_lineFeed (hsound : ∀ lexeme ∈ (ofList cs).lexemes, lexeme.token.Sound)
    (text : List Char) :
    (ofList (cs ++ '\n' :: text)).lexemes.map Lexeme.token =
      (ofList cs).lexemes.map Lexeme.token ++ (ofList text).lexemes.map Lexeme.token := by
  obtain ⟨rest, hcuts, hrest⟩ := Scrap.Cuts.exists_of_scanAll (List.append_nil (Scrap.scanAll cs)).symm
  have htokens := map_token_ofList cs
  have hall := sound_of_significant (List.append_nil _).symm
    (htokens ▸ List.forall_mem_map.2 hsound : ∀ token ∈ Token.significant _, token.Sound)
  have htail := map_token_lineFeed (by rwa [List.append_nil]) hall (Scrap.isIgnored_of_scanAll hrest) text
  rw [← List.append_assoc, ← hcuts.eq_flat] at htail
  rw [htail, htokens]

/-- A text may be cut off in front of a lexeme that stands behind sound tokens, or behind it if it is
sound itself, and go on behind a line break: the lexemes up to the cut stay what and where they are. -/
theorem exists_cut {a b : List Lexeme} {lexeme : Lexeme} (h : (ofList cs).lexemes = a ++ lexeme :: b)
    (hsound : ∀ l ∈ a, l.token.Sound) :
    ∃ before inside after, cs = before ++ (inside ++ after) ∧
      Cut.ofSpan cs lexeme.span = ⟨before, inside, after⟩ ∧
      (∀ text, (ofList (before ++ '\n' :: text)).lexemes.map Lexeme.token =
        a.map Lexeme.token ++ (ofList text).lexemes.map Lexeme.token) ∧
      (lexeme.token.Sound → ∀ text, ∃ a' lexeme' b',
        (ofList (before ++ (inside ++ '\n' :: text))).lexemes = a' ++ lexeme' :: b' ∧
        a'.map Lexeme.token = a.map Lexeme.token ∧ lexeme'.token = lexeme.token ∧
        Cut.ofSpan (before ++ (inside ++ '\n' :: text)) lexeme'.span =
          ⟨before, inside, '\n' :: text⟩) := by
  obtain ⟨scraps, scrap, later, hscan, htokens, htoken, hc, hspan⟩ := exists_scrap h
  obtain ⟨rest, hcuts, hrest⟩ := Scrap.Cuts.exists_of_scanAll hscan
  obtain ⟨after, hnext, -⟩ := Scrap.exists_next?_of_scanAll hrest
  obtain ⟨rfl, hgap, -⟩ := Scrap.eq_of_next? hnext
  have hall := sound_of_significant hscan (htokens ▸ List.forall_mem_map.2 hsound)
  have hcs := hcuts.eq_flat
  have hplace (more : List Char) : Cut.ofSpan (Scrap.flat scraps ++ (scrap.gap ++ (scrap.text ++ more)))
      (scrap.span (Text.utf8Length (Scrap.flat scraps))) =
        ⟨Scrap.flat scraps ++ scrap.gap, scrap.text, more⟩ := by
    rw [← List.append_assoc, Scrap.span, ← Text.utf8Length_append, Cut.ofSpan_append]
  refine ⟨Scrap.flat scraps ++ scrap.gap, scrap.text, after, ?_, ?_, fun text => ?_, fun hs text => ?_⟩
  · rw [hcs, List.append_assoc]
  · rw [hspan, hcs, hplace]
  · rw [List.append_assoc, map_token_lineFeed hcuts hall hgap text, htokens]
  · have hgo : Token.GoesOn after ('\n' :: text) := .inr rfl
    have hagain := hcuts.again hall ((hgo.append scrap.text).append scrap.gap)
    have hscan' := hagain.scanAll_eq
    rw [Scrap.scanAll_of_some (Scrap.next?_again hnext (htoken ▸ hs) hgo)] at hscan'
    obtain ⟨a', lexeme', b', hlexemes, ha', htoken', hspan'⟩ := exists_lexeme hscan' hc
    rw [List.append_assoc]
    exact ⟨a', lexeme', b', hlexemes, ha'.trans htokens, htoken'.trans htoken, by rw [hspan', hplace]⟩

/-! ### Writing tokens in lines -/

/-- Some tokens written one a line. -/
def lines (tokens : List Token) : List Char :=
  tokens.flatMap fun token => token.write ++ ['\n']

/-- Tokens that are written one a line are the tokens of that text. -/
theorem map_token_lines {tokens : List Token} (hsound : ∀ token ∈ tokens, token.Sound)
    (hcomment : ∀ token ∈ tokens, token.isComment = false) :
    (ofList (lines tokens)).lexemes.map Lexeme.token = tokens := by
  rw [map_token_ofList]
  induction tokens with
  | nil => rfl
  | cons token tokens ih =>
    obtain ⟨hs, hsound⟩ := List.forall_mem_cons.1 hsound
    obtain ⟨hc, hcomment⟩ := List.forall_mem_cons.1 hcomment
    obtain ⟨c, text, hwrite, hstart⟩ := Token.Known.exists_cons (.inl hs)
    have hnext : Scrap.next? ([] ++ (token.write ++ '\n' :: lines tokens)) =
        some (⟨[], token, token.write⟩, '\n' :: lines tokens) :=
      Scrap.next?_append (by simp) (by simp [hwrite]) (by simpa [hwrite] using hstart)
        (hs.legible _ (Token.parts_of_ignored hc (by decide) _))
    have hlines : lines (token :: tokens) = [] ++ (token.write ++ '\n' :: lines tokens) := by
      simp [lines]
    have hbreak : (Scrap.scanAll ('\n' :: lines tokens)).map Scrap.token =
        (Scrap.scanAll (lines tokens)).map Scrap.token :=
      Scrap.map_token_scanAll_append (List.forall_mem_singleton.2 (by decide)) (lines tokens)
    rw [hlines, Scrap.scanAll_of_some hnext, List.map_cons, hbreak, Token.significant,
      List.filter_cons_of_pos (by simp [hc])]
    exact congrArg _ (ih hsound hcomment)

end TokenStream

end GraphQLTree
