import GraphQLTree.Diagnostic.Excerpt
import GraphQLTree.Proofs.Diagnostic.Snippet
import GraphQLTree.Proofs.Token.Places
import Mathlib.Data.List.TakeWhile
import Mathlib.Data.Nat.Digits.Defs

/-!
# Reports by offsets never fail

The offsets that line feeds are found at are those where the text is cut for a position and a snippet
(`Cut.position?_text`, `Cut.snippet?_text`), so a span that can be cut out of a text has both. A snippet's
numbers are no wider than its last one, which gives the width of all its gutters. Its lines are those of
the text from the line before the span on, up to the one that the span ends on (`Span.snippet?_numbered`).
-/

namespace GraphQLTree

namespace Text

/-! ### Searching for line feeds -/

section LineFeeds

variable {line : List Char} (h : '\n' ∉ line)
include h

theorem firstLineFeed?_of_notMem : firstLineFeed? line = none := by
  induction line with
  | nil => rfl
  | cons c line ih =>
    obtain ⟨hc, hline⟩ := List.ne_and_not_mem_of_not_mem_cons h
    rw [firstLineFeed?, if_neg hc.symm, ih hline]
    rfl

theorem firstLineFeed?_append (rest : List Char) :
    firstLineFeed? (line ++ '\n' :: rest) = some (utf8Length line) := by
  induction line with
  | nil => rfl
  | cons c line ih =>
    obtain ⟨hc, hline⟩ := List.ne_and_not_mem_of_not_mem_cons h
    rw [List.cons_append, firstLineFeed?, if_neg hc.symm, ih hline]
    rfl

theorem lastLineFeed?_of_notMem : lastLineFeed? line = none := by
  induction line with
  | nil => rfl
  | cons c line ih =>
    obtain ⟨hc, hline⟩ := List.ne_and_not_mem_of_not_mem_cons h
    rw [lastLineFeed?, ih hline]
    exact if_neg hc.symm

theorem lastLineFeed?_append (earlier : List Char) :
    lastLineFeed? (earlier ++ '\n' :: line) = some (utf8Length earlier) := by
  induction earlier with
  | nil => rw [List.nil_append, lastLineFeed?, lastLineFeed?_of_notMem h]; rfl
  | cons c earlier ih => rw [List.cons_append, lastLineFeed?, ih]; rfl

end LineFeeds

/-- The last line starts behind all line feeds. -/
theorem exists_lastLineStart (cs : List Char) : ∃ skipped, cs = skipped ++ lastLine cs ∧
    lastLineStart cs = utf8Length skipped ∧ skipped.count '\n' = cs.count '\n' ∧
    (skipped = [] ∨ ∃ earlier, skipped = earlier ++ ['\n']) := by
  have hlast : '\n' ∉ lastLine cs := lineFeed_not_mem_lastLine cs
  have hcount : (lastLine cs).count '\n' = 0 := List.count_eq_zero.2 hlast
  rcases eq_lastLine cs with hcs | ⟨earlier, hcs⟩
  · refine ⟨[], hcs, ?_, by rw [hcs, hcount]; rfl, .inl rfl⟩
    rw [hcs, lastLineStart, lastLineFeed?_of_notMem hlast]
    rfl
  · refine ⟨earlier ++ ['\n'], by rw [List.append_assoc]; exact hcs, ?_, ?_, .inr ⟨earlier, rfl⟩⟩
    · rw [hcs, lastLineStart, lastLineFeed?_append hlast, utf8Length_append]
      rfl
    · rw [hcs, List.count_append, List.count_append, List.count_cons_self, List.count_cons_self, hcount]
      rfl

/-- What is searched for behind an offset ends the line there, or the text does. -/
theorem elim_firstLineFeed? (cs : List Char) (offset : Nat) :
    (firstLineFeed? cs).elim (offset + utf8Length cs) (· + offset) =
      offset + utf8Length (cs.takeWhile (· != '\n')) := by
  have hline : '\n' ∉ cs.takeWhile (· != '\n') := fun hmem => by simpa using List.mem_takeWhile_imp hmem
  have hcs := List.takeWhile_append_dropWhile (p := (· != '\n')) (l := cs)
  cases hrest : cs.dropWhile (· != '\n') with
  | nil =>
    rw [hrest, List.append_nil] at hcs
    rw [hcs] at hline ⊢
    rw [firstLineFeed?_of_notMem hline]
    rfl
  | cons c rest =>
    obtain rfl : c = '\n' := by
      have hhead := List.head?_dropWhile_not (· != '\n') cs
      simpa [hrest] using hhead
    have hfirst := firstLineFeed?_append hline rest
    rw [← hrest, hcs] at hfirst
    rw [hfirst]
    exact Nat.add_comm _ _

/-! ### Slices -/

theorem slice?_append (before inside after : List Char) :
    slice? (utf8Length before) (utf8Length before + utf8Length inside) (before ++ (inside ++ after)) =
      some inside :=
  slice?_eq_some_iff.2 ⟨before, after, rfl, rfl, rfl⟩

theorem slice?_zero_append (before after : List Char) :
    slice? 0 (utf8Length before) (before ++ after) = some before :=
  slice?_eq_some_iff.2 ⟨[], after, rfl, rfl, Nat.zero_add _⟩

theorem dropAt?_append (before after : List Char) :
    dropAt? (utf8Length before) (before ++ after) = some after :=
  dropAt?_eq_some_iff.2 ⟨before, rfl, rfl⟩

end Text

/-! ### Cuts -/

namespace Cut

/-- The text that was cut. -/
def text (cut : Cut) : List Char :=
  cut.before ++ (cut.inside ++ cut.after)

/-- The span that a text was cut at. -/
def span (cut : Cut) : Span :=
  ⟨Text.utf8Length cut.before, Text.utf8Length cut.before + Text.utf8Length cut.inside⟩

variable (cut : Cut)

theorem ofSpan_span : ofSpan cut.text cut.span = cut :=
  ofSpan_append cut.before cut.inside cut.after

/-- A text can be cut at a span if it can be cut at its ends. -/
theorem exists_eq_text {cs : List Char} {span : Span} (hle : span.start ≤ span.stop)
    (hstart : (Text.cutAt? span.start cs).isSome) (hstop : (Text.cutAt? span.stop cs).isSome) :
    ∃ cut : Cut, cs = cut.text ∧ span = cut.span := by
  obtain ⟨start, stop⟩ := span
  obtain ⟨⟨before, rest⟩, hcut⟩ := Option.isSome_iff_exists.1 hstart
  obtain ⟨⟨upTo, after⟩, hcut'⟩ := Option.isSome_iff_exists.1 hstop
  obtain ⟨rfl, rfl⟩ := Text.eq_of_cutAt? hcut
  obtain ⟨hcs, rfl⟩ := Text.eq_of_cutAt? hcut'
  rcases List.append_eq_append_iff.1 hcs with ⟨inside, rfl, rfl⟩ | ⟨inside, rfl, rfl⟩
  · exact ⟨⟨before, inside, after⟩, rfl, by rw [Cut.span, ← Text.utf8Length_append]⟩
  · -- Nothing lies between the ends when the second one isn't behind the first one.
    have hlength := Text.length_le_utf8Length inside
    dsimp only at hle
    rw [Text.utf8Length_append] at hle
    obtain rfl : inside = [] := List.length_eq_zero_iff.1 (by omega)
    exact ⟨⟨upTo, [], rest⟩, by simp [Cut.text], by simp [Cut.span]⟩

theorem slice?_before : Text.slice? 0 cut.span.start cut.text = some cut.before :=
  Text.slice?_zero_append cut.before _

/-- The first line of a text has no line feed in front of it. -/
theorem lastLineFeed?_before_eq_none {cut : Cut} (h : cut.before = cut.indent) :
    Text.lastLineFeed? cut.before = none := by
  rw [h]
  exact Text.lastLineFeed?_of_notMem (Text.lineFeed_not_mem_lastLine cut.before)

/-- The last line feed in front of a span ends the line before it. -/
theorem lastLineFeed?_before {cut : Cut} {earlier : List Char}
    (h : cut.before = earlier ++ '\n' :: cut.indent) :
    Text.lastLineFeed? cut.before = some (Text.utf8Length earlier) := by
  rw [h]
  exact Text.lastLineFeed?_append (Text.lineFeed_not_mem_lastLine cut.before) earlier

/-- The position of a span is found. -/
theorem position?_text : cut.span.position? cut.text = some cut.position := by
  rw [Span.position?, cut.slice?_before, Option.bind_eq_bind, Option.bind_some]
  rcases Text.eq_lastLine cut.before with heq | ⟨earlier, heq⟩
  · simp only [lastLineFeed?_before_eq_none heq, Option.bind_some]
    rw [position, indent, ← heq]
    rfl
  · have hdrop : Text.dropAt? (Text.utf8Length earlier + 1) cut.before = some cut.indent := by
      have hdrop := Text.dropAt?_append (earlier ++ ['\n']) cut.indent
      rw [Text.utf8Length_append, List.append_assoc] at hdrop
      rw [heq]
      exact hdrop
    simp only [lastLineFeed?_before heq, hdrop, Option.bind_some]
    rfl

/-- The line before a span is found: what is in front of it is numbered before the first line of the
snippet. -/
theorem exists_lead : ∃ skipped, cut.before = skipped ++ cut.lead ∧
    cut.span.leadStart? cut.text = some (Text.utf8Length skipped) ∧
    cut.firstLine = skipped.count '\n' + 1 ∧
    (skipped = [] ∨ ∃ earlier, skipped = earlier ++ ['\n']) := by
  rcases cut.lead_cases with ⟨heq, hzero, hlead⟩ | ⟨earlier, heq, hcount, hlead⟩
  · refine ⟨[], by rw [hlead, ← heq]; rfl, ?_, by rw [firstLine, hzero]; rfl, .inl rfl⟩
    rw [Span.leadStart?, cut.slice?_before, Option.bind_eq_bind, Option.bind_some,
      lastLineFeed?_before_eq_none heq]
    rfl
  · obtain ⟨skipped, hskipped, hstart, hnumber, hshape⟩ := Text.exists_lastLineStart earlier
    have hslice : Text.slice? 0 (Text.utf8Length earlier) cut.text = some earlier := by
      rw [text, heq, List.append_assoc]
      exact Text.slice?_zero_append earlier _
    refine ⟨skipped, ?_, ?_, ?_, hshape⟩
    · rw [hlead, heq, ← List.append_assoc, ← hskipped]
    · rw [Span.leadStart?, cut.slice?_before, Option.bind_eq_bind, Option.bind_some,
        lastLineFeed?_before heq]
      simp only [hslice, Option.bind_some, hstart]
      rfl
    · rw [firstLine, hcount, hnumber, Nat.max_eq_right (Nat.succ_pos _)]

/-! ### Lines -/

/-- A number has no more digits than a larger one. -/
theorem length_toDigits_le {m n : Nat} (h : m ≤ n) :
    (Nat.toDigits 10 m).length ≤ (Nat.toDigits 10 n).length := by
  have hpos : 0 < (Nat.toDigits 10 n).length := List.length_pos_iff.2 Nat.toDigits_ne_nil
  have hn := (Nat.length_toDigits_le_iff (by decide) hpos).1 (Nat.le_refl _)
  exact (Nat.length_toDigits_le_iff (by decide) hpos).2 (Nat.lt_of_le_of_lt h hn)

/-- A numbered line is put behind some output if its number isn't too wide. -/
theorem putLine?_eq {width first n : Nat} {line : List Char} (output : List Char)
    (h : (Nat.toDigits 10 (first + n)).length ≤ width) :
    Span.putLine? width first output (line, n) =
      some ((if 0 < n then output ++ ['\n'] else output) ++ numberedLine width (first + n) line) := by
  rw [Span.putLine?, difference?, if_pos h]
  rfl

/-- Lines behind the first one are put behind some output, each behind a line break. -/
theorem foldlM_putLine? {width first n : Nat} (lines : List (List Char)) (output : List Char)
    (hn : 0 < n) (h : ∀ k < n + lines.length, (Nat.toDigits 10 (first + k)).length ≤ width) :
    (lines.zipIdx n).foldlM (Span.putLine? width first) output =
      some (output ++ (lines.zipIdx n).flatMap fun line =>
        '\n' :: numberedLine width (first + line.2) line.1) := by
  induction lines generalizing n output with
  | nil => simp
  | cons line lines ih =>
    rw [List.length_cons] at h
    rw [List.zipIdx_cons, List.foldlM_cons, putLine?_eq output (h n (by omega)), if_pos hn]
    have hlater := ih (n := n + 1) ((output ++ ['\n']) ++ numberedLine width (first + n) line)
      (Nat.succ_pos n) fun k hk => h k (by omega)
    rw [Option.bind_eq_bind, Option.bind_some, hlater]
    simp

end Cut

theorem intercalate_cons_eq_flatMap {α : Type} (sep first : List α) (lists : List (List α)) :
    sep.intercalate (first :: lists) = first ++ lists.flatMap (sep ++ ·) := by
  induction lists generalizing first with
  | nil => simp
  | cons second lists ih =>
    rw [List.intercalate_cons_cons, ih, List.flatMap_cons, List.append_assoc, List.append_assoc]

namespace Cut

/-- All lines are put one below the other. -/
theorem foldlM_putLine?_zipIdx {width first : Nat} (lines : List (List Char))
    (h : ∀ k < lines.length, (Nat.toDigits 10 (first + k)).length ≤ width) :
    lines.zipIdx.foldlM (Span.putLine? width first) [] =
      some (['\n'].intercalate (lines.zipIdx.map fun (line, n) => numberedLine width (first + n) line)) := by
  cases lines with
  | nil => rfl
  | cons line lines =>
    rw [List.length_cons] at h
    have hlater := foldlM_putLine? (n := 1) lines (numberedLine width (first + 0) line) Nat.one_pos
      fun k hk => h k (by omega)
    rw [List.zipIdx_cons, List.foldlM_cons, putLine?_eq [] (h 0 (by omega)), if_neg (Nat.lt_irrefl 0),
      Option.bind_eq_bind, Option.bind_some, List.nil_append, Nat.zero_add, hlater, List.map_cons,
      intercalate_cons_eq_flatMap, List.flatMap_map]
    rfl

variable (cut : Cut)

/-- No number of a snippet is wider than its last one. -/
theorem length_toDigits_le_gutter {n : Nat} (hn : n < (Text.terminatedLines cut.shown).length) :
    (Nat.toDigits 10 (cut.firstLine + n)).length ≤ cut.gutter :=
  length_toDigits_le (by omega)

/-- Carets are put under a span that goes over no line break. -/
theorem putCarets?_text (output : List Char) :
    cut.span.putCarets? cut.text cut.gutter output =
      some (if cut.inside.contains '\n' then output else output ++ '\n' :: cut.caretLine) := by
  have hinside : Text.slice? cut.span.start cut.span.stop cut.text = some cut.inside :=
    Text.slice?_append cut.before cut.inside cut.after
  have hbefore : Text.slice? 0 cut.span.start cut.text = some cut.before :=
    Text.slice?_zero_append cut.before _
  have hindent : Text.slice? (Text.lastLineStart cut.before) cut.span.start cut.text = some cut.indent := by
    obtain ⟨skipped, heq, hstart, -, -⟩ := Text.exists_lastLineStart cut.before
    have heq : skipped ++ cut.indent = cut.before := heq.symm
    have hslice := Text.slice?_append skipped cut.indent (cut.inside ++ cut.after)
    rw [← Text.utf8Length_append, ← List.append_assoc, heq] at hslice
    rw [hstart]
    exact hslice
  simp only [Span.putCarets?, hinside, hbefore, hindent, Option.bind_eq_bind, Option.bind_some]
  split
  · rfl
  · rfl

/-- What a snippet shows lies between what it skips and the rest of the text. -/
theorem text_eq {skipped : List Char} (h : cut.before = skipped ++ cut.lead) :
    cut.text = skipped ++ (cut.shown ++ cut.after.dropWhile (· != '\n')) := by
  rw [text, shown, h, List.append_assoc, List.append_assoc, List.append_assoc,
    List.takeWhile_append_dropWhile]

/-- The snippet of a span is found. -/
theorem snippet?_text : cut.span.snippet? cut.text = some cut.snippet := by
  obtain ⟨skipped, hbefore, hstart, hfirst, -⟩ := cut.exists_lead
  have htext := cut.text_eq hbefore
  have hskipped : Text.slice? 0 (Text.utf8Length skipped) cut.text = some skipped := by
    rw [htext]
    exact Text.slice?_zero_append skipped _
  have hafter : Text.dropAt? cut.span.stop cut.text = some cut.after := by
    rw [text, span, ← Text.utf8Length_append, ← List.append_assoc]
    exact Text.dropAt?_append _ _
  have hstop : (Text.firstLineFeed? cut.after).elim (Text.utf8Length cut.text) (· + cut.span.stop) =
      Text.utf8Length skipped + Text.utf8Length cut.shown := by
    have htotal : Text.utf8Length cut.text = cut.span.stop + Text.utf8Length cut.after := by
      rw [text, span, Text.utf8Length_append, Text.utf8Length_append, Nat.add_assoc]
    rw [htotal, Text.elim_firstLineFeed?, span, shown, hbefore]
    simp only [Text.utf8Length_append, Nat.add_assoc]
  have hshown : Text.slice? (Text.utf8Length skipped)
      (Text.utf8Length skipped + Text.utf8Length cut.shown) cut.text = some cut.shown := by
    rw [htext]
    exact Text.slice?_append skipped cut.shown _
  have hlast : difference? (cut.firstLine + max 1 (Text.terminatedLines cut.shown).length) 1 =
      some (cut.firstLine + max 1 (Text.terminatedLines cut.shown).length - 1) :=
    if_pos (by omega)
  have hlines := foldlM_putLine?_zipIdx (Text.terminatedLines cut.shown)
    fun k hk => cut.length_toDigits_le_gutter hk
  rw [Span.snippet?, hstart]
  simp only [Option.bind_eq_bind, Option.bind_some, hskipped, hafter, hstop, hshown, ← hfirst, hlast]
  rw [← gutter, hlines, Option.bind_some, putCarets?_text, snippet, numberedLines]

/-! ### What the lines of a snippet say -/

/-- A numbered line of a snippet shows the line of the text with its number. -/
theorem exists_source_of_numberedLines {n : Nat} {numbered : List Char}
    (h : cut.numberedLines[n]? = some numbered) :
    ∃ shown source, numbered = numberedLine cut.gutter (cut.firstLine + n) shown ∧
      (Nat.toDigits 10 (cut.firstLine + n)).length ≤ cut.gutter ∧
      (cut.text.splitOn '\n')[cut.firstLine + n - 1]? = some source ∧
      (source = shown ∨ source = shown ++ ['\r']) := by
  obtain ⟨skipped, hbefore, -, hfirst, hskipped⟩ := cut.exists_lead
  rw [numberedLines, List.getElem?_map, List.getElem?_zipIdx, Option.map_map, Nat.zero_add] at h
  obtain ⟨shown, hshown, rfl⟩ := Option.map_eq_some_iff.1 h
  obtain ⟨source, hsource, hreturn⟩ := Text.exists_source hshown
  refine ⟨shown, source, rfl, cut.length_toDigits_le_gutter (List.getElem?_eq_some_iff.1 hshown).1, ?_,
    hreturn⟩
  have hlater : cut.after.dropWhile (· != '\n') = [] ∨
      ∃ tail, cut.after.dropWhile (· != '\n') = '\n' :: tail := by
    cases hrest : cut.after.dropWhile (· != '\n') with
    | nil => exact .inl rfl
    | cons c tail =>
      have hhead := List.head?_dropWhile_not (· != '\n') cut.after
      obtain rfl : c = '\n' := by simpa [hrest] using hhead
      exact .inr ⟨tail, rfl⟩
  have hbetween := Text.getElem?_splitOn_between hskipped hlater hsource
  rw [hfirst, Nat.add_right_comm, Nat.add_sub_cancel, cut.text_eq hbefore]
  exact hbetween

/-- The line that the span ends on. -/
def lastSourceLine : List Char :=
  Text.lastLine (cut.before ++ cut.inside) ++ cut.after.takeWhile (· != '\n')

theorem getElem?_lastSourceLine :
    (cut.text.splitOn '\n')[(cut.before ++ cut.inside).count '\n']? = some cut.lastSourceLine := by
  rw [text, ← List.append_assoc]
  exact Text.getElem?_splitOn _ _

/-- The numbered lines go up to the line that the span ends on, which isn't numbered when it is empty. -/
theorem length_numberedLines : cut.firstLine + cut.numberedLines.length =
    (cut.before ++ cut.inside).count '\n' + 1 + if cut.lastSourceLine = [] then 0 else 1 := by
  obtain ⟨skipped, hbefore, -, hfirst, hskipped⟩ := cut.exists_lead
  have hline : '\n' ∉ cut.after.takeWhile (· != '\n') := fun hmem => by
    simpa using List.mem_takeWhile_imp hmem
  have hlast : Text.lastLine cut.shown = cut.lastSourceLine := by
    rw [shown, Text.lastLine_append hline, lastSourceLine, hbefore, List.append_assoc]
    rcases hskipped with rfl | ⟨init, rfl⟩
    · rfl
    · rw [List.append_assoc, List.singleton_append, Text.lastLine_append_lineFeed]
  have hcount : skipped.count '\n' + cut.shown.count '\n' = (cut.before ++ cut.inside).count '\n' := by
    rw [shown, hbefore, List.count_append, List.count_append, List.count_append, List.count_append,
      List.count_eq_zero.2 hline]
    omega
  rw [numberedLines, List.length_map, List.length_zipIdx, Text.length_terminatedLines, hlast, hfirst]
  omega

end Cut

/-- Whether a line has a gutter of some width with a label at its end, and a text behind the gutter. -/
def Gutter (width : Nat) (label text line : List Char) : Prop :=
  label.length ≤ width ∧
    line = List.replicate (width - label.length) ' ' ++ label ++ [' ', '|', ' '] ++ text

/-- A span that starts and ends where a text can be cut has a position and a snippet. All lines of the
snippet have gutters of one width. The numbered ones start with the line before the one that the span starts
on, or with the first line, and each shows the line of the text with its number; they go up to the line that
the span ends on, which isn't there when it is empty. A line of carets follows unless the span goes over a
line break. -/
theorem Span.snippet?_numbered {cs : List Char} {span : Span} (hle : span.start ≤ span.stop)
    (hstart : (Text.cutAt? span.start cs).isSome) (hstop : (Text.cutAt? span.stop cs).isSome) :
    ∃ (cut : Cut) (width : Nat) (numbered : List (List Char)) (carets : List Char),
      cut = .ofSpan cs span ∧ cs = cut.before ++ (cut.inside ++ cut.after) ∧
      Text.utf8Length cut.before = span.start ∧ Text.utf8Length (cut.before ++ cut.inside) = span.stop ∧
      span.position? cs = some cut.position ∧ span.snippet? cs = some cut.snippet ∧
      cut.snippet = ['\n'].intercalate numbered ++ carets ∧
      (∀ n line, numbered[n]? = some line → ∃ shown source,
        Gutter width (Nat.toDigits 10 (max 1 (cut.position.line - 1) + n)) shown line ∧
        (cs.splitOn '\n')[max 1 (cut.position.line - 1) + n - 1]? = some source ∧
        (source = shown ∨ source = shown ++ ['\r'])) ∧
      (∃ last, (cs.splitOn '\n')[(cut.before ++ cut.inside).count '\n']? = some last ∧
        max 1 (cut.position.line - 1) + numbered.length =
          (cut.before ++ cut.inside).count '\n' + 1 + if last = [] then 0 else 1) ∧
      (if '\n' ∈ cut.inside then carets = [] else
        ∃ line, carets = '\n' :: line ∧ Gutter width [] (List.replicate (cut.position.column - 1) ' ' ++
          List.replicate (max 1 cut.inside.length) '^') line) := by
  obtain ⟨cut, rfl, rfl⟩ := Cut.exists_eq_text hle hstart hstop
  refine ⟨cut, cut.gutter + 1, cut.numberedLines,
    if cut.inside.contains '\n' then [] else '\n' :: cut.caretLine, cut.ofSpan_span.symm, rfl, rfl,
    Text.utf8Length_append _ _, cut.position?_text, cut.snippet?_text, ?_, fun n line hn => ?_,
    ⟨_, cut.getElem?_lastSourceLine, cut.length_numberedLines⟩, ?_⟩
  · rw [Cut.snippet]
    split <;> simp
  · obtain ⟨shown, source, rfl, hwidth, hsource, hreturn⟩ := cut.exists_source_of_numberedLines hn
    refine ⟨shown, source, ⟨Nat.le_succ_of_le hwidth, ?_⟩, hsource, hreturn⟩
    rw [Cut.numberedLine, ← Nat.sub_add_comm hwidth]
    rfl
  · by_cases hinside : '\n' ∈ cut.inside
    · simp [hinside]
    · rw [if_neg hinside, if_neg (by simpa using hinside)]
      exact ⟨cut.caretLine, rfl, Nat.zero_le _, by simp [Cut.caretLine, Cut.position]⟩

/-- A span on the tenth line: its number is wider than that of the line before, and what is in front of the
span on its line is longer in offsets than in characters. -/
theorem Span.snippet?_numbered_tenth :
    ((⟨13, 15⟩ : Span).start ≤ (⟨13, 15⟩ : Span).stop ∧
      (Text.cutAt? 13 (List.replicate 8 '\n' ++ ['a', '\n', 'é', ' ', 'ø'])).isSome ∧
      (Text.cutAt? 15 (List.replicate 8 '\n' ++ ['a', '\n', 'é', ' ', 'ø'])).isSome) ∧
    ∃ (cut : Cut) (width : Nat) (numbered : List (List Char)) (carets : List Char),
      cut = .ofSpan (List.replicate 8 '\n' ++ ['a', '\n', 'é', ' ', 'ø']) ⟨13, 15⟩ ∧
      List.replicate 8 '\n' ++ ['a', '\n', 'é', ' ', 'ø'] = cut.before ++ (cut.inside ++ cut.after) ∧
      Text.utf8Length cut.before = 13 ∧ Text.utf8Length (cut.before ++ cut.inside) = 15 ∧
      Span.position? ⟨13, 15⟩ (List.replicate 8 '\n' ++ ['a', '\n', 'é', ' ', 'ø']) = some cut.position ∧
      Span.snippet? ⟨13, 15⟩ (List.replicate 8 '\n' ++ ['a', '\n', 'é', ' ', 'ø']) = some cut.snippet ∧
      cut.snippet = ['\n'].intercalate numbered ++ carets ∧
      (∀ n line, numbered[n]? = some line → ∃ shown source,
        Gutter width (Nat.toDigits 10 (max 1 (cut.position.line - 1) + n)) shown line ∧
        ((List.replicate 8 '\n' ++ ['a', '\n', 'é', ' ', 'ø']).splitOn
          '\n')[max 1 (cut.position.line - 1) + n - 1]? = some source ∧
        (source = shown ∨ source = shown ++ ['\r'])) ∧
      (∃ last, ((List.replicate 8 '\n' ++ ['a', '\n', 'é', ' ', 'ø']).splitOn
          '\n')[(cut.before ++ cut.inside).count '\n']? = some last ∧
        max 1 (cut.position.line - 1) + numbered.length =
          (cut.before ++ cut.inside).count '\n' + 1 + if last = [] then 0 else 1) ∧
      (if '\n' ∈ cut.inside then carets = [] else
        ∃ line, carets = '\n' :: line ∧ Gutter width [] (List.replicate (cut.position.column - 1) ' ' ++
          List.replicate (max 1 cut.inside.length) '^') line) :=
  have hle : (⟨13, 15⟩ : Span).start ≤ (⟨13, 15⟩ : Span).stop := by decide
  have hstart : (Text.cutAt? 13 (List.replicate 8 '\n' ++ ['a', '\n', 'é', ' ', 'ø'])).isSome := by decide
  have hstop : (Text.cutAt? 15 (List.replicate 8 '\n' ++ ['a', '\n', 'é', ' ', 'ø'])).isSome := by decide
  ⟨⟨hle, hstart, hstop⟩, Span.snippet?_numbered hle hstart hstop⟩

example : Span.snippet? ⟨13, 15⟩ (List.replicate 8 '\n' ++ ['a', '\n', 'é', ' ', 'ø']) =
    some "  9 | a\n 10 | é ø\n    |   ^".toList := by decide +kernel

end GraphQLTree
