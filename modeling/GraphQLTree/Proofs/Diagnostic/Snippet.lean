import GraphQLTree.Diagnostic.Snippet
import GraphQLTree.Proofs.Text.Lines

/-!
# Snippets point at positions

The last numbered line of a snippet has the number of the line that the span starts on and is that line,
and the carets under it start in the column of the span (`Cut.shownIn_of_sourceLine_ne_nil`). Only an empty
line that nothing follows isn't shown: there the carets stand under the line before it
(`Cut.shownIn_of_sourceLine_eq_nil`).
-/

namespace GraphQLTree

theorem intercalate_concat {α : Type} (sep : List α) {lists : List (List α)} (h : lists ≠ [])
    (last : List α) : sep.intercalate (lists ++ [last]) = sep.intercalate lists ++ (sep ++ last) := by
  induction lists with
  | nil => exact absurd rfl h
  | cons first lists ih =>
    cases lists with
    | nil =>
      rw [List.singleton_append, List.intercalate_cons_cons, List.intercalate_singleton,
        List.intercalate_singleton, List.append_assoc]
    | cons second lists =>
      have hne : second :: lists ≠ [] := List.cons_ne_nil second lists
      rw [List.cons_append, List.intercalate_cons_of_ne_nil (List.append_ne_nil_of_left_ne_nil hne _),
        ih hne, List.intercalate_cons_of_ne_nil hne, List.append_assoc _ _ (sep ++ last)]

/-- Whether a snippet ends with a line under the number of a position, and with carets right below that
start in the column of the position. -/
def Position.ShownIn (position : Position) (line snippet : List Char) : Prop :=
  ∃ earlier carets, 0 < carets ∧ snippet = ['\n'].intercalate (earlier ++
    [' ' :: Nat.toDigits 10 position.line ++ [' ', '|', ' '] ++ line,
      List.replicate ((Nat.toDigits 10 position.line).length + 1) ' ' ++ [' ', '|', ' '] ++
        List.replicate (position.column - 1) ' ' ++ List.replicate carets '^'])

namespace Cut

variable (cut : Cut)

/-- The line that the span starts on. -/
def sourceLine : List Char :=
  cut.indent ++ (cut.inside ++ cut.after).takeWhile (· != '\n')

theorem lineFeed_not_mem_sourceLine : '\n' ∉ cut.sourceLine := by
  intro h
  rcases List.mem_append.1 h with h | h
  · exact Text.lineFeed_not_mem_lastLine cut.before h
  · simpa using List.mem_takeWhile_imp h

/-- The line that the span starts on is the one with the number of its position. -/
theorem getElem?_splitOn : ((cut.before ++ (cut.inside ++ cut.after)).splitOn '\n')[cut.lineFeeds]? =
    some cut.sourceLine :=
  Text.getElem?_splitOn cut.before (cut.inside ++ cut.after)

/-- A snippet leads up to its span from the line before, if there is one. -/
theorem lead_cases : cut.before = cut.indent ∧ cut.lineFeeds = 0 ∧ cut.lead = cut.indent ∨
    ∃ earlier, cut.before = earlier ++ '\n' :: cut.indent ∧
      cut.lineFeeds = earlier.count '\n' + 1 ∧ cut.lead = Text.lastLine earlier ++ '\n' :: cut.indent := by
  have hlast : '\n' ∉ cut.indent := Text.lineFeed_not_mem_lastLine cut.before
  rcases Text.eq_lastLine cut.before with hbefore | ⟨earlier, hbefore⟩
  · have hindent : cut.indent = cut.before := hbefore.symm
    refine .inl ⟨hbefore, ?_, ?_⟩
    · rw [lineFeeds, ← hindent, List.count_eq_zero.2 hlast]
    · rw [lead, hindent, Nat.sub_self]
      rfl
  · refine .inr ⟨earlier, hbefore, ?_, ?_⟩
    · rw [lineFeeds, hbefore, List.count_append, List.count_cons_self]
      exact congrArg _ (congrArg _ (List.count_eq_zero.2 hlast))
    · have htake : cut.before.take (cut.before.length - cut.indent.length) = earlier ++ ['\n'] := by
        have hbefore : cut.before = (earlier ++ ['\n']) ++ cut.indent := by
          rw [List.append_assoc]
          exact hbefore
        have hlength := congrArg List.length hbefore
        rw [List.length_append] at hlength
        rw [hlength, Nat.add_sub_cancel, hbefore, List.take_left]
      rw [lead, htake, List.dropLast_concat]
      cases earlier with
      | nil => exact hbefore
      | cons c earlier => rfl

variable {cut : Cut} (hinside : '\n' ∉ cut.inside)

include hinside

/-- The line that the span starts on goes on behind it. -/
theorem sourceLine_eq :
    cut.sourceLine = cut.indent ++ (cut.inside ++ cut.after.takeWhile (· != '\n')) := by
  rw [sourceLine, List.takeWhile_append_of_pos]
  intro c hc
  have hne : c ≠ '\n' := fun heq => hinside (heq ▸ hc)
  simpa using hne

/-- A snippet shows the line that its span starts on, and the line before, if there is one. -/
theorem shown_cases : cut.before = cut.indent ∧ cut.lineFeeds = 0 ∧ cut.shown = cut.sourceLine ∨
    ∃ earlier, cut.before = earlier ++ '\n' :: cut.indent ∧
      cut.lineFeeds = earlier.count '\n' + 1 ∧
      cut.shown = Text.lastLine earlier ++ '\n' :: cut.sourceLine := by
  rw [shown, sourceLine_eq hinside]
  rcases cut.lead_cases with ⟨hbefore, hzero, hlead⟩ | ⟨earlier, hbefore, hcount, hlead⟩
  · exact .inl ⟨hbefore, hzero, by rw [hlead, List.append_assoc]⟩
  · refine .inr ⟨earlier, hbefore, hcount, ?_⟩
    rw [hlead]
    simp only [List.append_assoc, List.cons_append]

/-- A snippet ends with the last of the lines that it shows. -/
theorem shownIn_of_terminatedLines {earlier : List (List Char)} {line : List Char}
    (h : Text.terminatedLines cut.shown = earlier ++ [line]) {number : Nat}
    (hnumber : number = cut.firstLine + earlier.length) :
    (⟨number, cut.position.column⟩ : Position).ShownIn line cut.snippet := by
  subst hnumber
  have hgutter : cut.gutter = (Nat.toDigits 10 (cut.firstLine + earlier.length)).length := by
    have hcount : max 1 (earlier.length + 1) = earlier.length + 1 := Nat.max_eq_right (by omega)
    rw [gutter, h, List.length_append, List.length_singleton, hcount]
    rfl
  obtain ⟨numbered, hnumbered⟩ : ∃ numbered, cut.numberedLines = numbered ++
      [numberedLine cut.gutter (cut.firstLine + earlier.length) line] := by
    rw [numberedLines, h, List.zipIdx_append, List.map_append, Nat.zero_add]
    exact ⟨_, rfl⟩
  have hne : cut.numberedLines ≠ [] := by
    rw [hnumbered]
    exact List.append_ne_nil_of_right_ne_nil _ (List.cons_ne_nil _ _)
  have hcontains : cut.inside.contains '\n' = false := by simpa using hinside
  have hsnippet : cut.snippet = ['\n'].intercalate (cut.numberedLines ++ [cut.caretLine]) := by
    rw [intercalate_concat _ hne, snippet, hcontains]
    rfl
  refine ⟨numbered, max 1 cut.inside.length, Nat.lt_of_lt_of_le Nat.one_pos (Nat.le_max_left ..), ?_⟩
  rw [hsnippet, hnumbered, List.append_assoc, numberedLine, caretLine, hgutter, Nat.sub_self]
  rfl

/-- A line that isn't empty is shown, with carets in the column of the span. -/
theorem shownIn_of_sourceLine_ne_nil (hne : cut.sourceLine ≠ []) :
    cut.position.ShownIn cut.sourceLine cut.snippet := by
  have hline := Text.terminatedLines_eq_singleton cut.lineFeed_not_mem_sourceLine hne
  rcases shown_cases hinside with ⟨-, hzero, hshown⟩ | ⟨earlier, -, hcount, hshown⟩
  · have hlines : Text.terminatedLines cut.shown = [] ++ [cut.sourceLine] := by
      rw [hshown, hline]
      rfl
    have hnumber : cut.position.line = cut.firstLine + 0 := by
      rw [position, firstLine, hzero]
      rfl
    exact shownIn_of_terminatedLines hinside hlines hnumber
  · obtain ⟨above, -, hlines⟩ :=
      Text.exists_terminatedLines (Text.lineFeed_not_mem_lastLine earlier) cut.sourceLine
    have hlines : Text.terminatedLines cut.shown = [above] ++ [cut.sourceLine] := by
      rw [hshown, hlines, hline]
      rfl
    have hnumber : cut.position.line = cut.firstLine + 1 := by
      rw [position, firstLine, Nat.max_eq_right (by omega)]
    exact shownIn_of_terminatedLines hinside hlines hnumber

/-- An empty line that nothing follows isn't shown: the carets are under the line before it, if there is
one. -/
theorem shownIn_of_sourceLine_eq_nil (hnil : cut.sourceLine = []) :
    cut.before = [] ∨ ∃ above shown,
      ((cut.before ++ (cut.inside ++ cut.after)).splitOn '\n')[cut.lineFeeds - 1]? = some above ∧
      (above = shown ∨ above = shown ++ ['\r']) ∧
      (⟨cut.lineFeeds, cut.position.column⟩ : Position).ShownIn shown cut.snippet := by
  rcases shown_cases hinside with ⟨hbefore, -, -⟩ | ⟨earlier, hbefore, hcount, hshown⟩
  · exact .inl (hbefore.trans (List.append_eq_nil_iff.1 hnil).1)
  · obtain ⟨shown, habove, hlines⟩ :=
      Text.exists_terminatedLines (Text.lineFeed_not_mem_lastLine earlier) []
    refine .inr ⟨Text.lastLine earlier, shown, ?_, habove, ?_⟩
    · have hline := Text.getElem?_splitOn earlier ('\n' :: (cut.indent ++ (cut.inside ++ cut.after)))
      rw [List.takeWhile_cons_of_neg (by simp), List.append_nil] at hline
      rw [hcount, Nat.add_sub_cancel, hbefore, List.append_assoc]
      exact hline
    · have hlines : Text.terminatedLines cut.shown = [] ++ [shown] := by
        rw [hshown, hnil, hlines]
        rfl
      have hnumber : cut.lineFeeds = cut.firstLine + 0 := by
        rw [firstLine, Nat.max_eq_right (by omega), Nat.add_zero]
      exact shownIn_of_terminatedLines hinside hlines hnumber

end Cut

end GraphQLTree
