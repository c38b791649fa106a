import GraphQLTree.Proofs.Token.Places

/-!
# Texts one behind the other

The words of two texts with a line break between them are those of the first and those of the second,
if the first has no lexical error (`Word.ofText_append_lineFeed`). The comments behind the last word of
the first belong to the first word of the second then, in front of its own.
-/

namespace GraphQLTree

/-- A text of sound tokens is cut into the same scraps in front of a line break, and the line break is in
front of what follows. -/
theorem Scrap.scanAll_append_lineFeed {cs : List Char}
    (hsound : ∀ scrap ∈ scanAll cs, scrap.token.Sound) (text : List Char) :
    ∃ gap, Text.hasLineBreak gap = true ∧
      scanAll (cs ++ '\n' :: text) = scanAll cs ++ (scanAll text).modifyHead (pad gap) := by
  obtain ⟨gap, hcuts, hgap⟩ := Cuts.exists_of_scanAll (List.append_nil (scanAll cs)).symm
  refine ⟨gap ++ ['\n'], by simp [Text.hasLineBreak], ?_⟩
  have hcs : cs ++ '\n' :: text = flat (scanAll cs) ++ (gap ++ '\n' :: text) := by
    rw [← List.append_assoc, ← hcuts.eq_flat]
  rw [← List.append_nil gap] at hcuts
  rw [hcs, hcuts.scanAll_lineFeed hsound (isIgnored_of_scanAll hgap)]

namespace Word

/-- Behind a line break, no comment is on the line of what is before it. -/
theorem inlineText?_pad {gap : List Char} (hgap : Text.hasLineBreak gap = true) (scraps : List Scrap) :
    inlineText? (scraps.modifyHead (Scrap.pad gap)) = none := by
  cases scraps with
  | nil => rfl
  | cons scrap scraps =>
    obtain ⟨gap', token, written⟩ := scrap
    cases token with
    | comment text =>
      have hbreak : Text.hasLineBreak (gap ++ gap') = true := by
        rw [Text.hasLineBreak] at hgap ⊢
        rw [List.any_append, hgap, Bool.true_or]
      simp [Scrap.pad, inlineText?, hbreak]
    | _ => rfl

/-- What is in front of the first scrap matters to a comment on the line of what is before it alone. -/
theorem ofScraps_modifyHead (gap : List Char) (pending : List Comment) (scraps : List Scrap) :
    ofScraps pending (scraps.modifyHead (Scrap.pad gap)) = ofScraps pending scraps := by
  induction pending, scraps using ofScraps_induction with
  | nil pending => rfl
  | comment pending gap' text written rest _ =>
    rw [List.modifyHead_cons, Scrap.pad, ofScraps_comment, ofScraps_comment]
  | inline pending before token written gap' text written' rest hc hv hgap _ =>
    rw [List.modifyHead_cons, Scrap.pad, ofScraps_inline _ hc hv hgap, ofScraps_inline _ hc hv hgap]
  | token pending before token written rest hc h _ =>
    rw [List.modifyHead_cons, Scrap.pad, ofScraps_token _ hc h, ofScraps_token _ hc h]

/-- Puts comments in front of those of the first word, or of those behind the words if there is none. -/
def carry (comments : List Comment) : List Word × List Comment → List Word × List Comment
  | ([], trailing) => ([], comments ++ trailing)
  | (word :: words, trailing) =>
    ({ word with comments := comments ++ word.comments } :: words, trailing)

/-- Comments that wait belong to the first word. -/
theorem ofScraps_carry (waiting pending : List Comment) (scraps : List Scrap) :
    ofScraps (waiting ++ pending) scraps = carry waiting (ofScraps pending scraps) := by
  induction pending, scraps using ofScraps_induction with
  | nil pending => rfl
  | comment pending gap text written rest ih =>
    rw [ofScraps_comment, ofScraps_comment, List.append_assoc, ih]
  | inline pending before token written gap text written' rest hc hv hgap _ =>
    rw [ofScraps_inline _ hc hv hgap, ofScraps_inline _ hc hv hgap, List.append_assoc]
    rfl
  | token pending before token written rest hc h _ =>
    rw [ofScraps_token _ hc h, ofScraps_token _ hc h]
    rfl

/-- The words of scraps and of more scraps that don't start with a comment on their line. -/
theorem ofScraps_append {b : List Scrap} (hb : inlineText? b = none) (pending : List Comment)
    (a : List Scrap) : ofScraps pending (a ++ b) =
      ((ofScraps pending a).1 ++ (ofScraps (ofScraps pending a).2 b).1,
        (ofScraps (ofScraps pending a).2 b).2) := by
  induction pending, a using ofScraps_induction with
  | nil pending => rfl
  | comment pending gap text written rest ih =>
    rw [List.cons_append, ofScraps_comment, ofScraps_comment, ih]
  | inline pending before token written gap text written' rest hc hv hgap ih =>
    rw [List.cons_append, List.cons_append, ofScraps_inline _ hc hv hgap,
      ofScraps_inline _ hc hv hgap, ih]
    rfl
  | token pending before token written rest hc h ih =>
    have happend : inlineText? rest = none → inlineText? (rest ++ b) = none := by
      cases rest with
      | nil => exact fun _ => hb
      | cons scrap rest =>
        obtain ⟨gap, next, written'⟩ := scrap
        cases next <;> exact id
    rw [List.cons_append, ofScraps_token _ hc h, ofScraps_token _ hc (h.imp id happend), ih]
    rfl

/-- The words of a text that goes on behind a line break: those of its first part, and those of the rest,
whose first word takes the comments along that were left over. -/
theorem ofText_append_lineFeed {cs : List Char}
    (hsound : ∀ scrap ∈ Scrap.scanAll cs, scrap.token.Sound) (text : List Char) :
    ofText (cs ++ '\n' :: text) =
      ((ofText cs).1 ++ (carry (ofText cs).2 (ofText text)).1, (carry (ofText cs).2 (ofText text)).2) := by
  obtain ⟨gap, hgap, hscan⟩ := Scrap.scanAll_append_lineFeed hsound text
  rw [ofText, hscan, ofScraps_append (inlineText?_pad hgap _), ofScraps_modifyHead]
  have hcarry := ofScraps_carry (ofText cs).2 [] (Scrap.scanAll text)
  rw [List.append_nil] at hcarry
  rw [← ofText, hcarry]
  rfl

/-- Only comments wait that a text without words ends with. -/
theorem carry_snd {words : List Word × List Comment} (hwords : words.1 ≠ []) (comments : List Comment) :
    (carry comments words).2 = words.2 := by
  obtain ⟨_ | ⟨word, rest⟩, trailing⟩ := words
  · exact absurd rfl hwords
  · rfl

/-- Comments that words take along change none of their tokens. -/
theorem map_token_carry (comments : List Comment) (words : List Word × List Comment) :
    (carry comments words).1.map token = words.1.map token := by
  obtain ⟨_ | ⟨word, rest⟩, trailing⟩ := words <;> rfl

end Word

end GraphQLTree
