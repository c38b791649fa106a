import GraphQLTree.Text.Lines
import Mathlib.Data.List.TakeWhile

/-!
# Lines that end at line feeds

A line that a line feed ends is shown without the carriage return in front of the line feed
(`exists_terminatedLines`), and what is behind the last line feed is shown as it is, unless there is
nothing (`terminatedLines_eq_singleton`). Splitting a text at its line feeds numbers the lines: behind a
number of line feeds there is the line with that number (`getElem?_splitOn`), and a line that is shown is
the one with its number (`exists_source`).
-/

namespace GraphQLTree.Text

/-! ### Lines with a terminator -/

/-- A text is a line that no line feed ends, or a line with its line feed in front of another text. -/
theorem lines_induction {motive : List Char → Prop} (last : ∀ line, '\n' ∉ line → motive line)
    (more : ∀ line cs, '\n' ∉ line → motive cs → motive (line ++ '\n' :: cs)) (cs : List Char) :
    motive cs := by
  by_cases hmem : '\n' ∈ cs
  · obtain ⟨line, rest, heq, hline⟩ := List.eq_append_cons_of_mem hmem
    have hlength : rest.length < cs.length := by
      rw [heq, List.length_append, List.length_cons]
      omega
    exact heq ▸ more line rest hline (lines_induction last more rest)
  · exact last cs hmem
termination_by cs.length

theorem terminatedLines_cons {c : Char} {cs : List Char} (hn : c ≠ '\n')
    (hr : c = '\r' → cs.head? ≠ some '\n') : terminatedLines (c :: cs) = consLine c (terminatedLines cs) := by
  rw [terminatedLines]
  · rintro tail rfl rfl
    exact hr rfl rfl
  · exact hn

/-- What no line feed ends is one line, unless it is empty. -/
theorem terminatedLines_eq_singleton {line : List Char} (h : '\n' ∉ line) (hne : line ≠ []) :
    terminatedLines line = [line] := by
  induction line with
  | nil => exact absurd rfl hne
  | cons c line ih =>
    obtain ⟨hc, hline⟩ := List.ne_and_not_mem_of_not_mem_cons h
    have hhead : line.head? ≠ some '\n' := fun hhead => hline (List.mem_of_head? hhead)
    rw [terminatedLines_cons hc.symm fun _ => hhead]
    cases line with
    | nil => rfl
    | cons d line => rw [ih hline (List.cons_ne_nil d line)]; rfl

/-- A line that a line feed ends, but for a carriage return in front of the line feed. -/
theorem exists_terminatedLines {line : List Char} (h : '\n' ∉ line) (cs : List Char) :
    ∃ shown, (line = shown ∨ line = shown ++ ['\r']) ∧
      terminatedLines (line ++ '\n' :: cs) = shown :: terminatedLines cs := by
  induction line with
  | nil => exact ⟨[], .inl rfl, rfl⟩
  | cons c line ih =>
    obtain ⟨hc, hline⟩ := List.ne_and_not_mem_of_not_mem_cons h
    by_cases hreturn : c = '\r' ∧ line = []
    · obtain ⟨rfl, rfl⟩ := hreturn
      exact ⟨[], .inr rfl, rfl⟩
    · obtain ⟨shown, hshown, hlines⟩ := ih hline
      have hr : c = '\r' → (line ++ '\n' :: cs).head? ≠ some '\n' := by
        intro hr hhead
        cases line with
        | nil => exact hreturn ⟨hr, rfl⟩
        | cons d line => exact hline (Option.some.inj hhead ▸ List.mem_cons_self)
      refine ⟨c :: shown, hshown.imp (congrArg _) (congrArg _), ?_⟩
      rw [List.cons_append, terminatedLines_cons hc.symm hr, hlines]
      rfl

theorem not_mem_of_hasLineBreak {line : List Char} (h : hasLineBreak line = false) :
    '\n' ∉ line ∧ '\r' ∉ line := by
  simp only [hasLineBreak, List.any_eq_false, Bool.or_eq_true, beq_iff_eq, not_or] at h
  exact ⟨fun hmem => (h _ hmem).1 rfl, fun hmem => (h _ hmem).2 rfl⟩

theorem terminatedLines_append_lineFeed {line : List Char} (h : hasLineBreak line = false)
    (cs : List Char) : terminatedLines (line ++ '\n' :: cs) = line :: terminatedLines cs := by
  obtain ⟨hn, hr⟩ := not_mem_of_hasLineBreak h
  obtain ⟨shown, rfl | rfl, hlines⟩ := exists_terminatedLines hn cs
  · exact hlines
  · exact absurd (List.mem_append_right _ (List.mem_singleton_self _)) hr

/-! ### The last line -/

theorem lineFeed_not_mem_lastLine (cs : List Char) : '\n' ∉ lastLine cs := by
  intro h
  simpa using List.mem_takeWhile_imp (List.mem_reverse.1 h)

/-- The last line is all of a text or lies behind a line feed. -/
theorem eq_lastLine (cs : List Char) :
    cs = lastLine cs ∨ ∃ earlier, cs = earlier ++ '\n' :: lastLine cs := by
  have hcs := congrArg List.reverse (List.takeWhile_append_dropWhile (p := (· != '\n')) (l := cs.reverse))
  rw [List.reverse_append, List.reverse_reverse] at hcs
  cases hrest : cs.reverse.dropWhile (· != '\n') with
  | nil =>
    rw [hrest] at hcs
    exact .inl hcs.symm
  | cons c rest =>
    have hc : c = '\n' := by
      have hhead := List.head?_dropWhile_not (· != '\n') cs.reverse
      simpa [hrest] using hhead
    rw [hrest, hc, List.reverse_cons, List.append_assoc] at hcs
    exact .inr ⟨rest.reverse, hcs.symm⟩

/-- A last line goes on up to the next line feed. -/
theorem lastLine_append {line : List Char} (h : '\n' ∉ line) (cs : List Char) :
    lastLine (cs ++ line) = lastLine cs ++ line := by
  have hall : ∀ c ∈ line.reverse, (c != '\n') = true := by
    intro c hc
    have hne : c ≠ '\n' := fun heq => h (heq ▸ List.mem_reverse.1 hc)
    simpa using hne
  rw [lastLine, List.reverse_append, List.takeWhile_append_of_pos hall, List.reverse_append,
    List.reverse_reverse]
  rfl

/-- Nothing in front of a line feed is on the last line. -/
theorem lastLine_append_lineFeed (earlier cs : List Char) :
    lastLine (earlier ++ '\n' :: cs) = lastLine cs := by
  have hempty (init : List Char) : lastLine (init ++ ['\n']) = [] := by
    simp [lastLine]
  have hlast (init : List Char) : lastLine ((init ++ ['\n']) ++ lastLine cs) = lastLine cs := by
    rw [lastLine_append (lineFeed_not_mem_lastLine cs), hempty, List.nil_append]
  rcases eq_lastLine cs with hcs | ⟨before, hcs⟩
  · have h := hlast earlier
    rw [← hcs, List.append_assoc] at h
    exact h.trans hcs
  · have h := hlast (earlier ++ '\n' :: before)
    rwa [List.append_assoc, List.append_assoc, List.singleton_append, List.cons_append, ← hcs] at h

/-- There are as many lines as line feeds, and one more if something is behind the last of them. -/
theorem length_terminatedLines (cs : List Char) :
    (terminatedLines cs).length = cs.count '\n' + if lastLine cs = [] then 0 else 1 := by
  induction cs using lines_induction with
  | last line hline =>
    have hlast : lastLine line = line := lastLine_append hline []
    rw [hlast, List.count_eq_zero.2 hline]
    split
    · next hnil => rw [hnil]; rfl
    · next hne => rw [terminatedLines_eq_singleton hline hne]; rfl
  | more line cs hline ih =>
    obtain ⟨shown, -, hlines⟩ := exists_terminatedLines hline cs
    rw [hlines, List.length_cons, ih, lastLine_append_lineFeed, List.count_append,
      List.count_cons_self, List.count_eq_zero.2 hline]
    omega

/-! ### Numbers of lines -/

theorem length_splitOn (cs : List Char) : (cs.splitOn '\n').length = cs.count '\n' + 1 := by
  induction cs with
  | nil => rfl
  | cons c cs ih =>
    rw [List.splitOn_cons_eq_if_modifyHead, List.count_cons]
    split <;> simp_all

/-- The first line. -/
theorem head?_splitOn (cs : List Char) :
    (cs.splitOn '\n').head? = some (cs.takeWhile (· != '\n')) := by
  induction cs with
  | nil => rfl
  | cons c cs ih =>
    rw [List.splitOn_cons_eq_if_modifyHead]
    split
    · next hc => simp_all
    · next hc => simp_all [List.head?_modifyHead]

/-- Behind a number of line feeds there is the line with that number. -/
theorem getElem?_splitOn (before after : List Char) :
    ((before ++ after).splitOn '\n')[before.count '\n']? =
      some (lastLine before ++ after.takeWhile (· != '\n')) := by
  have hlast := lineFeed_not_mem_lastLine before
  have htake : (lastLine before ++ after).takeWhile (· != '\n') =
      lastLine before ++ after.takeWhile (· != '\n') := by
    refine List.takeWhile_append_of_pos fun c hc => ?_
    have hne : c ≠ '\n' := fun heq => hlast (heq ▸ hc)
    simpa using hne
  rcases eq_lastLine before with hbefore | ⟨earlier, hbefore⟩
  · rw [← hbefore] at hlast htake
    rw [List.count_eq_zero.2 hlast, ← List.head?_eq_getElem?, head?_splitOn, htake, ← hbefore]
  · have hsplit : (before ++ after).splitOn '\n' =
        earlier.splitOn '\n' ++ (lastLine before ++ after).splitOn '\n' := by
      rw [← List.splitOn_append_cons_self, ← List.cons_append, ← List.append_assoc, ← hbefore]
    have hcount : before.count '\n' = (earlier.splitOn '\n').length := by
      rw [length_splitOn, hbefore, List.count_append, List.count_cons_self, List.count_eq_zero.2 hlast]
    rw [hsplit, hcount, List.getElem?_append_right (Nat.le_refl _), Nat.sub_self,
      ← List.head?_eq_getElem?, head?_splitOn, htake]

/-- A line that is shown is the line with its number, but for a carriage return at its end. -/
theorem exists_source {cs line : List Char} {n : Nat} (h : (terminatedLines cs)[n]? = some line) :
    ∃ source, (cs.splitOn '\n')[n]? = some source ∧ (source = line ∨ source = line ++ ['\r']) := by
  induction cs using lines_induction generalizing n with
  | last first hfirst =>
    have hne : first ≠ [] := by
      rintro rfl
      cases h
    rw [terminatedLines_eq_singleton hfirst hne] at h
    rw [List.splitOn_eq_singleton hfirst]
    exact ⟨line, h, .inl rfl⟩
  | more first cs hfirst ih =>
    obtain ⟨shown, hshown, hlines⟩ := exists_terminatedLines hfirst cs
    rw [hlines] at h
    rw [List.splitOn_append_cons_self, List.splitOn_eq_singleton hfirst, List.singleton_append]
    cases n with
    | zero =>
      obtain rfl := Option.some.inj h
      exact ⟨first, rfl, hshown⟩
    | succ n => exact ih h

/-- The lines between two line feeds, or an end of the text, are numbered behind those in front of them. -/
theorem getElem?_splitOn_between {earlier cs later : List Char}
    (hearlier : earlier = [] ∨ ∃ init, earlier = init ++ ['\n'])
    (hlater : later = [] ∨ ∃ tail, later = '\n' :: tail) {n : Nat} {line : List Char}
    (h : (cs.splitOn '\n')[n]? = some line) :
    ((earlier ++ (cs ++ later)).splitOn '\n')[earlier.count '\n' + n]? = some line := by
  have hcs : ((cs ++ later).splitOn '\n')[n]? = some line := by
    rcases hlater with rfl | ⟨tail, rfl⟩
    · rwa [List.append_nil]
    · rw [List.splitOn_append_cons_self, List.getElem?_append_left (List.getElem?_eq_some_iff.1 h).1]
      exact h
  rcases hearlier with rfl | ⟨init, rfl⟩
  · rwa [List.count_nil, Nat.zero_add, List.nil_append]
  · have hcount : (init ++ ['\n']).count '\n' = (init.splitOn '\n').length := by
      rw [length_splitOn, List.count_append]
      rfl
    rw [List.append_assoc, List.singleton_append, List.splitOn_append_cons_self, hcount,
      List.getElem?_append_right (Nat.le_add_right _ _), Nat.add_sub_cancel_left]
    exact hcs

end GraphQLTree.Text
