import GraphQLTree.Grammar.Parser
import GraphQLTree.Proofs.Token.Legible

/-!
# Words

A **word** is a lexeme without its place in the text: a token and the comments that belong to it.
The words of a text depend on its tokens and on whether there are line breaks between them
(`map_word_lexemes`), and reading depends on words alone. The tokens of words are sound, unless they
are invalid or a bare number in front of an invalid token (`lexed_words`).
-/

namespace GraphQLTree

/-- A token with the comments that belong to it. -/
structure Word where
  token : Token
  comments : List Comment
  deriving DecidableEq

/-- A lexeme without its place. -/
def Lexeme.word (lexeme : Lexeme) : Word :=
  ⟨lexeme.token, lexeme.comments⟩

/-! ### Scraps -/

namespace Scrap

theorem length_next?_lt {cs rest : List Char} {scrap : Scrap} (h : next? cs = some (scrap, rest)) :
    rest.length < cs.length := by
  have hle := (List.dropWhile_suffix Token.isIgnored (l := cs)).length_le
  unfold next? at h
  split at h
  · cases h
  · next c l hcl =>
    simp only [Option.some.injEq, Prod.mk.injEq] at h
    rw [← h.2, List.length_drop]
    rw [hcl, List.length_cons] at hle
    omega

private theorem scanUpTo_eq_of_le {n m : Nat} {cs : List Char} (hn : cs.length ≤ n)
    (hm : cs.length ≤ m) : scanUpTo n cs = scanUpTo m cs := by
  induction n generalizing m cs with
  | zero =>
    obtain rfl : cs = [] := List.eq_nil_of_length_eq_zero (by omega)
    cases m <;> rfl
  | succ n ih =>
    cases m with
    | zero =>
      obtain rfl : cs = [] := List.eq_nil_of_length_eq_zero (by omega)
      rfl
    | succ m =>
      rw [scanUpTo, scanUpTo]
      split
      · rfl
      · next scrap rest h =>
        have := length_next?_lt h
        rw [ih (m := m) (by omega) (by omega)]

theorem scanAll_of_none {cs : List Char} (h : next? cs = none) : scanAll cs = [] := by
  unfold scanAll
  cases cs with
  | nil => rfl
  | cons c cs => rw [List.length_cons, scanUpTo, h]

/-- Scanning goes on behind each scrap. -/
theorem scanAll_of_some {cs rest : List Char} {scrap : Scrap} (h : next? cs = some (scrap, rest)) :
    scanAll cs = scrap :: scanAll rest := by
  have hlt := length_next?_lt h
  unfold scanAll
  cases cs with
  | nil => cases h
  | cons c cs =>
    rw [List.length_cons] at hlt
    rw [List.length_cons, scanUpTo, h]
    simp only
    rw [scanUpTo_eq_of_le (show rest.length ≤ cs.length by omega) (Nat.le_refl _)]

/-- Ignored characters followed by a token make one scrap. -/
theorem next?_append {gap text after : List Char} {token : Token}
    (hgap : ∀ c ∈ gap, Token.isIgnored c = true) (hne : text ≠ [])
    (hhead : ∀ c ∈ text.head?, Token.isIgnored c = false)
    (hscan : token.ScansFrom text.length (text ++ after)) :
    next? (gap ++ (text ++ after)) = some (⟨gap, token, text⟩, after) := by
  cases text with
  | nil => exact absurd rfl hne
  | cons c text =>
    have hc := hhead c rfl
    have hdrop : (gap ++ c :: (text ++ after)).dropWhile Token.isIgnored = c :: (text ++ after) := by
      rw [List.dropWhile_append_of_pos hgap, List.dropWhile_cons_of_neg (by simp [hc])]
    have htake : (gap ++ c :: (text ++ after)).takeWhile Token.isIgnored = gap := by
      rw [List.takeWhile_append_of_pos hgap, List.takeWhile_cons_of_neg (by simp [hc])]
      simp
    unfold next?
    simp only [List.cons_append, Token.ScansFrom, List.length_cons] at hdrop htake hscan ⊢
    rw [hdrop]
    simp [hscan, htake]

/-- Every induction over the scraps of a text goes from a text to what follows its first scrap. -/
theorem scanAll_induction {motive : List Char → Prop}
    (none : ∀ cs, next? cs = none → motive cs)
    (some : ∀ cs scrap rest, next? cs = some (scrap, rest) → motive rest → motive cs)
    (cs : List Char) : motive cs := by
  cases h : next? cs with
  | none => exact none cs h
  | some next => exact some cs next.1 next.2 h (scanAll_induction none some next.2)
termination_by cs.length
decreasing_by exact length_next?_lt h

end Scrap

/-! ### Words of scraps -/

/-- The comment that some scraps start with, if it is on the line of what is before them. -/
def inlineText? : List Scrap → Option String
  | ⟨gap, .comment text, _⟩ :: _ => if Text.hasLineBreak gap then none else some text
  | _ => none

namespace Word

/-- Groups scraps into words, and gives the comments that are left over. -/
def ofScraps (pending : List Comment) : List Scrap → List Word × List Comment
  | [] => ([], pending)
  | ⟨_, .comment text, _⟩ :: rest => ofScraps (pending ++ [⟨false, text⟩]) rest
  | ⟨_, token, _⟩ :: ⟨gap, .comment text, written⟩ :: rest =>
    if token = .invalid || Text.hasLineBreak gap then
      let later := ofScraps [] (⟨gap, .comment text, written⟩ :: rest)
      (⟨token, pending⟩ :: later.1, later.2)
    else
      let later := ofScraps [] rest
      (⟨token, pending ++ [⟨true, text⟩]⟩ :: later.1, later.2)
  | ⟨_, token, _⟩ :: rest =>
    let later := ofScraps [] rest
    (⟨token, pending⟩ :: later.1, later.2)

/-- Puts a word in front of some. -/
def put (word : Word) (later : List Word × List Comment) : List Word × List Comment :=
  (word :: later.1, later.2)

theorem ofScraps_comment (pending : List Comment) (gap : List Char) (text : String)
    (written : List Char) (rest : List Scrap) :
    ofScraps pending (⟨gap, .comment text, written⟩ :: rest) =
      ofScraps (pending ++ [⟨false, text⟩]) rest := by
  rw [ofScraps]

theorem ofScraps_inline (pending : List Comment) {token : Token} (hc : ∀ text, token ≠ .comment text)
    (hv : token ≠ .invalid) {gap : List Char} (hgap : Text.hasLineBreak gap = false)
    (text : String) (before written written' : List Char) (rest : List Scrap) :
    ofScraps pending (⟨before, token, written⟩ :: ⟨gap, .comment text, written'⟩ :: rest) =
      put ⟨token, pending ++ [⟨true, text⟩]⟩ (ofScraps [] rest) := by
  rw [ofScraps]
  · simp [hv, hgap, put]
  · exact fun text h => hc text h

theorem ofScraps_token (pending : List Comment) {token : Token} (hc : ∀ text, token ≠ .comment text)
    {rest : List Scrap} (h : token = .invalid ∨ inlineText? rest = none)
    (before written : List Char) :
    ofScraps pending (⟨before, token, written⟩ :: rest) =
      put ⟨token, pending⟩ (ofScraps [] rest) := by
  rw [ofScraps.eq_def]
  split
  · next h => cases h
  · next h => injection h with h; injection h with _ h; exact absurd h (hc _)
  · next he =>
    injection he with he hrest
    injection he with _ he
    rw [if_pos]
    · rw [hrest, he]; rfl
    · subst hrest he
      simpa [inlineText?] using h
  · next he =>
    injection he with he hrest
    injection he with _ he
    rw [hrest, he]; rfl

/-- Scraps are grouped one by one, but for a comment on the line of the token before it. -/
theorem ofScraps_induction {motive : List Comment → List Scrap → Prop}
    (nil : ∀ pending, motive pending [])
    (comment : ∀ pending gap text written rest, motive (pending ++ [⟨false, text⟩]) rest →
      motive pending (⟨gap, .comment text, written⟩ :: rest))
    (inline : ∀ pending before token written gap text written' rest,
      (∀ text, token ≠ .comment text) → token ≠ .invalid → Text.hasLineBreak gap = false →
      motive [] rest →
      motive pending (⟨before, token, written⟩ :: ⟨gap, .comment text, written'⟩ :: rest))
    (token : ∀ pending before token written rest, (∀ text, token ≠ .comment text) →
      (token = .invalid ∨ inlineText? rest = none) → motive [] rest →
      motive pending (⟨before, token, written⟩ :: rest))
    (pending : List Comment) (scraps : List Scrap) : motive pending scraps := by
  match scraps with
  | [] => exact nil pending
  | ⟨before, t, written⟩ :: rest =>
    have ih (pending : List Comment) : motive pending rest :=
      ofScraps_induction nil comment inline token pending rest
    by_cases hc : ∃ text, t = .comment text
    · obtain ⟨text, rfl⟩ := hc
      exact comment _ _ _ _ _ (ih _)
    · have hc : ∀ text, t ≠ .comment text := fun text he => hc ⟨text, he⟩
      by_cases h : t = .invalid ∨ inlineText? rest = none
      · exact token _ _ _ _ _ hc h (ih _)
      · obtain ⟨hv, hrest⟩ := not_or.1 h
        match rest, hrest with
        | ⟨gap, .comment text, written'⟩ :: rest', hrest =>
          have hgap : Text.hasLineBreak gap = false := by simpa [inlineText?] using hrest
          exact inline _ _ _ _ _ _ _ _ hc hv hgap
            (ofScraps_induction nil comment inline token [] rest')
termination_by scraps.length

end Word

namespace TokenStream

/-- Puts a lexeme in front of some. -/
def put (lexeme : Lexeme) (later : List Lexeme × List Comment) :
    List Lexeme × List Comment :=
  (lexeme :: later.1, later.2)

theorem group_comment (pending : List Comment) (gap : List Char) (text : String)
    (written : List Char) (span : Span) (rest : List (Scrap × Span)) :
    group pending ((⟨gap, .comment text, written⟩, span) :: rest) =
      group (pending ++ [⟨false, text⟩]) rest := by
  simp [group]

theorem group_inline (pending : List Comment) {token : Token}
    (hc : ∀ text, token ≠ .comment text) (hv : token ≠ .invalid) {gap : List Char}
    (hgap : Text.hasLineBreak gap = false) (text : String) (before written written' : List Char)
    (span span' : Span) (rest : List (Scrap × Span)) :
    group pending
        ((⟨before, token, written⟩, span) :: (⟨gap, .comment text, written'⟩, span') :: rest) =
      put ⟨token, span, pending ++ [⟨true, text⟩]⟩ (group [] rest) := by
  rw [group.eq_4 _ _ _ _ _ _ _ _ hc hv, if_neg (by simp [hgap])]
  rfl

theorem group_token (pending : List Comment) {token : Token}
    (hc : ∀ text, token ≠ .comment text) {rest : List (Scrap × Span)}
    (h : token = .invalid ∨ inlineText? (rest.map Prod.fst) = none) (before written : List Char)
    (span : Span) :
    group pending ((⟨before, token, written⟩, span) :: rest) =
      put ⟨token, span, pending⟩ (group [] rest) := by
  by_cases hv : token = .invalid
  · rw [group.eq_3 _ _ _ _ hv]
    rfl
  · cases rest with
    | nil => exact group.eq_5 _ _ _ _ (by simp) hc hv
    | cons next rest =>
      obtain ⟨⟨gap, token', written'⟩, span'⟩ := next
      cases token' with
      | comment text =>
        have hgap : Text.hasLineBreak gap = true := by
          simpa [inlineText?] using h.resolve_left hv
        rw [group.eq_4 _ _ _ _ _ _ _ _ hc hv, if_pos hgap]
        rfl
      | _ => exact group.eq_5 _ _ _ _ (by simp) hc hv

theorem map_fst_locateFrom (offset : Nat) (scraps : List Scrap) :
    (Scrap.locateFrom offset scraps).map Prod.fst = scraps := by
  induction scraps generalizing offset with
  | nil => rfl
  | cons scrap scraps ih => rw [Scrap.locateFrom, List.map_cons, ih]

/-- Where the scraps lie doesn't matter. -/
theorem group_locateFrom (pending : List Comment) (scraps : List Scrap) (offset : Nat) :
    ((group pending (Scrap.locateFrom offset scraps)).1.map Lexeme.word,
      (group pending (Scrap.locateFrom offset scraps)).2) = Word.ofScraps pending scraps := by
  induction pending, scraps using Word.ofScraps_induction generalizing offset with
  | nil pending => rfl
  | comment pending gap text written rest ih =>
    rw [Scrap.locateFrom, group_comment, Word.ofScraps_comment]
    exact ih _
  | inline pending before token written gap text written' rest hc hv hgap ih =>
    rw [Scrap.locateFrom, Scrap.locateFrom, group_inline _ hc hv hgap,
      Word.ofScraps_inline _ hc hv hgap, ← ih]
    rfl
  | token pending before token written rest hc h ih =>
    rw [Scrap.locateFrom, group_token _ hc (by rwa [map_fst_locateFrom]),
      Word.ofScraps_token _ hc h, ← ih]
    rfl

end TokenStream

namespace Word

/-- The words of a text, and the comments behind the last of them. -/
def ofText (cs : List Char) : List Word × List Comment :=
  ofScraps [] (Scrap.scanAll cs)

end Word

theorem TokenStream.map_word_lexemes (cs : List Char) :
    (TokenStream.ofList cs).lexemes.map Lexeme.word = (Word.ofText cs).1 := by
  exact congrArg Prod.fst (group_locateFrom [] (Scrap.scanAll cs) 0)

theorem TokenStream.trailing_ofList (cs : List Char) :
    (TokenStream.ofList cs).trailing = (Word.ofText cs).2 := by
  exact congrArg Prod.snd (group_locateFrom [] (Scrap.scanAll cs) 0)

/-! ### Soundness -/

namespace Word

/-- Whether words are sound but for invalid tokens and bare numbers in front of them. -/
def Lexed : List Word → Prop
  | [] => True
  | word :: rest =>
    (word.token = .invalid ∨ word.token.Sound ∨
      word.token.IsBareNumber ∧ ∃ next, rest.head? = some next ∧ next.token = .invalid) ∧
    (∀ comment ∈ word.comments, (Token.comment comment.text).Sound) ∧ Lexed rest

/-- Whether scraps are sound but for invalid tokens and bare numbers in front of them. -/
def LexedScraps : List Scrap → Prop
  | [] => True
  | scrap :: rest =>
    (scrap.token = .invalid ∨ scrap.token.Sound ∨
      scrap.token.IsBareNumber ∧ ∃ next, rest.head? = some next ∧ next.token = .invalid) ∧
    LexedScraps rest

theorem lexedScraps_scanAll (cs : List Char) : LexedScraps (Scrap.scanAll cs) := by
  induction cs using Scrap.scanAll_induction with
  | none cs h => rw [Scrap.scanAll_of_none h]; trivial
  | some cs scrap rest h ih =>
    rw [Scrap.scanAll_of_some h]
    refine ⟨?_, ih⟩
    unfold Scrap.next? at h
    split at h
    · cases h
    · next c l hcl =>
      simp only [Option.some.injEq, Prod.mk.injEq] at h
      obtain ⟨rfl, rfl⟩ := h
      refine Decidable.or_iff_not_imp_left.2 fun hv => ?_
      have hscan : Token.scan c l = ((Token.scan c l).1, (Token.scan c l).2) := rfl
      refine (Token.sound_or_bare_of_scan hscan hv).imp id fun ⟨hbare, hnext⟩ => ⟨hbare, ?_⟩
      cases hsize : (Token.scan c l).2 with
      | zero =>
        rw [hsize] at hnext
        exact absurd hnext.2 hv
      | succ n =>
        rw [hsize, List.drop_succ_cons] at hnext
        rw [Nat.add_sub_cancel]
        generalize l.drop n = rest at hnext
        cases rest with
        | nil => exact absurd hnext id
        | cons d rest =>
          have hnext? : Scrap.next? (d :: rest) = some (⟨[], .invalid,
              d :: rest.take ((Token.scan d rest).2 - 1)⟩,
              rest.drop ((Token.scan d rest).2 - 1)) := by
            simp [Scrap.next?, List.takeWhile, List.dropWhile, hnext.1, ← hnext.2]
          exact ⟨_, by rw [Scrap.scanAll_of_some hnext?]; rfl, rfl⟩

theorem lexedScraps_append {a b : List Scrap} (h : LexedScraps (a ++ b)) : LexedScraps b := by
  induction a with
  | nil => exact h
  | cons scrap a ih => exact ih h.2

theorem lexed_ofScraps (pending : List Comment) (scraps : List Scrap)
    (hpending : ∀ comment ∈ pending, (Token.comment comment.text).Sound)
    (hscraps : LexedScraps scraps) :
    Lexed (ofScraps pending scraps).1 ∧
      ∀ comment ∈ (ofScraps pending scraps).2, (Token.comment comment.text).Sound := by
  induction pending, scraps using ofScraps_induction with
  | nil pending => exact ⟨trivial, hpending⟩
  | comment pending gap text written rest ih =>
    rw [ofScraps_comment]
    have htext : (Token.comment text).Sound := by
      simpa [Token.not_isBareNumber_comment] using hscraps.1
    refine ih (fun comment hmem => ?_) hscraps.2
    rcases List.mem_append.1 hmem with hmem | hmem
    · exact hpending comment hmem
    · obtain rfl := List.mem_singleton.1 hmem
      exact htext
  | inline pending before token written gap text written' rest hc hv hgap ih =>
    rw [ofScraps_inline _ hc hv hgap]
    obtain ⟨htoken, hcomment, hscraps⟩ := hscraps
    obtain ⟨hlexed, hrest⟩ := ih (by simp) hscraps
    refine ⟨⟨htoken.imp id (Or.imp id ?_), ?_, hlexed⟩, hrest⟩
    · rintro ⟨-, next, hnext, hinvalid⟩
      obtain rfl := Option.some.inj hnext
      cases hinvalid
    · have htext : (Token.comment text).Sound := by
        simpa [Token.not_isBareNumber_comment] using hcomment
      intro comment hmem
      rcases List.mem_append.1 hmem with hmem | hmem
      · exact hpending comment hmem
      · obtain rfl := List.mem_singleton.1 hmem
        exact htext
  | token pending before token written rest hc h ih =>
    rw [ofScraps_token _ hc h]
    obtain ⟨htoken, hscraps⟩ := hscraps
    obtain ⟨hlexed, hrest⟩ := ih (by simp) hscraps
    refine ⟨⟨htoken.imp id (Or.imp id ?_), hpending, hlexed⟩, hrest⟩
    rintro ⟨hbare, ⟨gap, next, written'⟩, hnext, hinvalid⟩
    obtain ⟨rest, rfl⟩ := List.head?_eq_some_iff.1 hnext
    obtain rfl : next = .invalid := hinvalid
    exact ⟨hbare, ⟨.invalid, []⟩, by rw [ofScraps_token _ (by simp) (.inl rfl)]; rfl, rfl⟩

/-- The words of a text are sound but for invalid tokens and bare numbers in front of them. -/
theorem lexed_ofText (cs : List Char) : Lexed (ofText cs).1 :=
  (lexed_ofScraps [] _ (by simp) (lexedScraps_scanAll cs)).1

/-- The comments behind the last word of a text are sound. -/
theorem sound_trailing_ofText (cs : List Char) :
    ∀ comment ∈ (ofText cs).2, (Token.comment comment.text).Sound :=
  (lexed_ofScraps [] _ (by simp) (lexedScraps_scanAll cs)).2

end Word

end GraphQLTree
