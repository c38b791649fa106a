import GraphQLTree.Proofs.Text.Margin

/-!
# The value of a block string in several passes

What the value of a raw text is can be said pass by pass: cut the text into lines, find the indentation
that all filled lines behind the first share, take it away from them, drop the blank lines around, and join
what is left. The value that is computed in one pass over the lines is that one
(`dedent_eq_blockValue`).
-/

namespace GraphQLTree.Text

/-- Whether some lines are those of a text, in which LF, CR LF and CR end a line. -/
inductive IsSplit : List Char → List (List Char) → Prop where
  | last {line : List Char} (h : hasLineBreak line = false) : IsSplit line [line]
  | lineFeed {line cs : List Char} {lines : List (List Char)} (h : hasLineBreak line = false)
    (hcs : IsSplit cs lines) : IsSplit (line ++ '\n' :: cs) (line :: lines)
  | both {line cs : List Char} {lines : List (List Char)} (h : hasLineBreak line = false)
    (hcs : IsSplit cs lines) : IsSplit (line ++ '\r' :: '\n' :: cs) (line :: lines)
  | carriageReturn {line cs : List Char} {lines : List (List Char)} (h : hasLineBreak line = false)
    (hne : cs.head? ≠ some '\n') (hcs : IsSplit cs lines) : IsSplit (line ++ '\r' :: cs) (line :: lines)

/-- Whether a line is all spaces and tabs. -/
def isBlankLine (line : List Char) : Bool :=
  line.all isIndent

/-- The least indentation of the lines behind the first that are not blank, if there is such a line. -/
def commonIndent (lines : List (List Char)) : Option Nat :=
  ((lines.tail.filter fun line => !isBlankLine line).map indentation).min?

/-- Some lines without the common indentation, or as much of it as there is. The first line has none. -/
def unindent (lines : List (List Char)) : List (List Char) :=
  match commonIndent lines with
  | none => lines
  | some n => lines.take 1 ++ lines.tail.map (·.drop n)

/-- Some lines without blank lines at the start, and then at the end. -/
def trimLines (lines : List (List Char)) : List (List Char) :=
  ((lines.dropWhile isBlankLine).reverse.dropWhile isBlankLine).reverse

/-- The value of a block string's lines. -/
def blockValue (lines : List (List Char)) : List Char :=
  joinLines (trimLines (unindent lines))

/-! ### Lines -/

/-- A character that is no line break belongs to the first line. -/
theorem IsSplit.cons {c : Char} {cs : List Char} {lines : List (List Char)} (h : IsSplit cs lines)
    (hc : hasLineBreak [c] = false) : IsSplit (c :: cs) (consLine c lines) := by
  have hline {line : List Char} (h : hasLineBreak line = false) : hasLineBreak (c :: line) = false := by
    rw [hasLineBreak_cons, hc, h]
    rfl
  cases h with
  | last h => exact .last (hline h)
  | lineFeed h hcs => exact .lineFeed (hline h) hcs
  | both h hcs => exact .both (hline h) hcs
  | carriageReturn h hne hcs => exact .carriageReturn (hline h) hne hcs

/-- The lines of a text are unique, and they are those that it is cut into. -/
theorem isSplit_iff {cs : List Char} {lines : List (List Char)} :
    IsSplit cs lines ↔ splitLines cs = lines := by
  constructor
  · intro h
    induction h with
    | last h => exact splitLines_eq_singleton h
    | lineFeed h _ ih => rw [splitLines_append_lineFeed h, ih]
    | @both line cs lines h _ ih =>
      have hsplit : splitLines ('\r' :: '\n' :: cs) = [] :: lines := by rw [splitLines, ih]
      rw [splitLines_append h hsplit, List.append_nil]
    | @carriageReturn line cs lines h hne _ ih =>
      have hsplit : splitLines ('\r' :: cs) = [] :: lines := by
        rw [splitLines.eq_4 cs fun _ he => hne (by rw [he]; rfl), ih]
      rw [splitLines_append h hsplit, List.append_nil]
  · rintro rfl
    have hnone : hasLineBreak [] = false := rfl
    fun_induction splitLines cs with
    | case1 => exact .last hnone
    | case2 cs ih => exact .both hnone ih
    | case3 cs ih => exact .lineFeed hnone ih
    | case4 cs h ih =>
      refine .carriageReturn hnone (fun hhead => ?_) ih
      obtain ⟨rest, rfl⟩ := List.head?_eq_some_iff.1 hhead
      exact h rest rfl
    | case5 c cs _ hline hreturn ih => exact ih.cons (by simp [hasLineBreak]; exact ⟨hline, hreturn⟩)

/-! ### Blank lines -/

theorem isBlankLine_iff {line : List Char} : isBlankLine line = true ↔ ¬Filled line := by
  have hline := List.takeWhile_append_dropWhile (p := isIndent) (l := line)
  rw [Filled, Decidable.not_not, indentation, isBlankLine]
  constructor
  · intro h
    have hwhile := @List.takeWhile_append_of_pos _ isIndent line [] (List.all_eq_true.1 h)
    rw [List.append_nil, List.takeWhile_nil, List.append_nil] at hwhile
    rw [hwhile]
  · intro h
    have hself : line.takeWhile isIndent = line :=
      (List.takeWhile_prefix isIndent).eq_of_length h
    rw [← hself]
    exact List.all_takeWhile

theorem isBlankLine_eq_false_iff {line : List Char} : isBlankLine line = false ↔ Filled line := by
  rw [← Bool.not_eq_true, isBlankLine_iff, Decidable.not_not]

/-- Trimming leaves what begins and ends with a filled line. -/
theorem trimLines_append {before inside after : List (List Char)}
    (hbefore : ∀ line ∈ before, ¬Filled line) (hafter : ∀ line ∈ after, ¬Filled line)
    (hfirst : ∃ line, inside.head? = some line ∧ Filled line)
    (hlast : ∃ line, inside.getLast? = some line ∧ Filled line) :
    trimLines (before ++ inside ++ after) = inside := by
  obtain ⟨first, hfirst, hf⟩ := hfirst
  obtain ⟨last, hlast, hl⟩ := hlast
  have hstart : (before ++ inside ++ after).dropWhile isBlankLine = inside ++ after := by
    rw [List.append_assoc, List.dropWhile_append_of_pos fun line hline =>
      isBlankLine_iff.2 (hbefore line hline)]
    obtain ⟨tail, rfl⟩ := List.head?_eq_some_iff.1 hfirst
    rw [List.cons_append, List.dropWhile_cons_of_neg (by rwa [isBlankLine_iff, Decidable.not_not])]
  have hend : (inside ++ after).reverse.dropWhile isBlankLine = inside.reverse := by
    rw [List.reverse_append, List.dropWhile_append_of_pos fun line hline =>
      isBlankLine_iff.2 (hafter line (List.mem_reverse.1 hline))]
    obtain ⟨init, rfl⟩ := List.getLast?_eq_some_iff.1 hlast
    rw [List.reverse_append, List.reverse_singleton, List.singleton_append,
      List.dropWhile_cons_of_neg (by rwa [isBlankLine_iff, Decidable.not_not])]
  rw [trimLines, hstart, hend, List.reverse_reverse]

theorem trimLines_of_not_filled {lines : List (List Char)} (h : ∀ line ∈ lines, ¬Filled line) :
    trimLines lines = [] := by
  have hdrop := @List.dropWhile_append_of_pos _ isBlankLine lines []
    fun line hline => isBlankLine_iff.2 (h line hline)
  rw [List.append_nil, List.dropWhile_nil] at hdrop
  rw [trimLines, hdrop]
  rfl

/-! ### Indentation -/

/-- A line has a number other than zero if and only if it is behind the first. -/
theorem exists_mem_zipIdx_iff {lines : List (List Char)} {line : List Char} :
    (∃ n, n ≠ 0 ∧ (line, n) ∈ lines.zipIdx) ↔ line ∈ lines.tail := by
  cases lines with
  | nil => simp
  | cons first later =>
    rw [List.zipIdx_cons, List.tail_cons]
    constructor
    · rintro ⟨n, hn, hmem⟩
      rcases List.mem_cons.1 hmem with he | hmem
      · exact absurd (Prod.mk.inj he).2 hn
      · exact List.fst_mem_of_mem_zipIdx hmem
    · intro h
      obtain ⟨n, hn⟩ := List.getElem?_of_mem h
      exact ⟨1 + n, by omega, List.mem_cons_of_mem _ (List.mk_add_mem_zipIdx_iff_getElem?.2 hn)⟩

/-- The margin that one pass finds is the common indentation. -/
theorem margin_eq_commonIndent (lines : List (List Char)) :
    (lines.zipIdx.foldl BlockExtent.measure .empty).margin = commonIndent lines := by
  have hle (line : List Char) (hline : line ∈ lines.tail) (hf : Filled line) :
      ∃ m ≤ indentation line, (lines.zipIdx.foldl BlockExtent.measure .empty).margin = some m := by
    obtain ⟨n, hn, hmem⟩ := exists_mem_zipIdx_iff.2 hline
    exact BlockExtent.foldl_measure_margin_le_of_mem hmem hf hn .empty
  have hmem (n : Nat) : n ∈ (lines.tail.filter fun line => !isBlankLine line).map indentation ↔
      ∃ line ∈ lines.tail, Filled line ∧ indentation line = n := by
    simp only [List.mem_map, List.mem_filter, Bool.not_eq_true', isBlankLine_eq_false_iff, and_assoc]
  rw [commonIndent, eq_comm]
  cases hm : (lines.zipIdx.foldl BlockExtent.measure .empty).margin with
  | none =>
    rw [List.min?_eq_none_iff, List.eq_nil_iff_forall_not_mem]
    intro n hn
    obtain ⟨line, hline, hf, -⟩ := (hmem n).1 hn
    obtain ⟨m, -, he⟩ := hle line hline hf
    rw [hm] at he
    cases he
  | some m =>
    rw [List.min?_eq_some_iff]
    constructor
    · rcases BlockExtent.foldl_measure_margin_attained _ _ hm with he | ⟨line, hline, hf, hz, hn⟩
      · cases he
      · exact (hmem m).2 ⟨line.1, exists_mem_zipIdx_iff.1 ⟨line.2, hz, hline⟩, hf, hn⟩
    · intro n hn
      obtain ⟨line, hline, hf, rfl⟩ := (hmem n).1 hn
      obtain ⟨k, hk, he⟩ := hle line hline hf
      rw [hm, Option.some.injEq] at he
      omega

/-! ### Values -/

/-- Lines are unindented as they are cut by their extent, if there is a margin. -/
theorem unindent_of_margin {lines : List (List Char)} {extent : BlockExtent} {n : Nat}
    (hextent : lines.zipIdx.foldl BlockExtent.measure .empty = extent) (hn : extent.margin = some n) :
    unindent lines = lines.zipIdx.map extent.cut := by
  have hcommon : commonIndent lines = some n := by rw [← margin_eq_commonIndent, hextent, hn]
  have hlines : unindent lines = lines.take 1 ++ lines.tail.map (·.drop n) := by
    rw [unindent, hcommon]
  rw [hlines]
  cases lines with
  | nil => rfl
  | cons first later =>
    have hlater : later.map (·.drop n) = (later.zipIdx 1).map extent.cut := by
      conv => lhs; rw [← List.zipIdx_map_fst 1 later, List.map_map]
      refine List.map_congr_left fun line hline => ?_
      have hle := List.le_snd_of_mem_zipIdx hline
      rw [BlockExtent.cut_of_margin hn (by omega)]
      rfl
    rw [List.zipIdx_cons, List.map_cons, ← hlater]
    rfl

theorem unindent_of_margin_eq_none {lines : List (List Char)}
    (h : (lines.zipIdx.foldl BlockExtent.measure .empty).margin = none) : unindent lines = lines := by
  rw [margin_eq_commonIndent] at h
  rw [unindent, h]

theorem not_filled_cut {extent : BlockExtent} {line : List Char × Nat} (h : ¬Filled line.1) :
    ¬Filled (extent.cut line) := by
  have hblank := List.all_eq_true.1 (isBlankLine_iff.2 h)
  rw [← isBlankLine_iff, isBlankLine, List.all_eq_true]
  unfold BlockExtent.cut
  split
  · exact hblank
  split
  · exact fun c hc => hblank c (List.mem_of_mem_drop hc)
  · exact nofun

private theorem not_filled_map_cut {lines : List (List Char)} (h : ∀ line ∈ lines, ¬Filled line)
    (extent : BlockExtent) {n : Nat} : ∀ line ∈ (lines.zipIdx n).map extent.cut, ¬Filled line :=
  List.forall_mem_map.2 fun _ hline => not_filled_cut (h _ (List.fst_mem_of_mem_zipIdx hline))

/-- Without a margin, the last filled line is the first line, which is not cut. -/
private theorem map_cut_of_margin_eq_none {lines : List (List Char)} {extent : BlockExtent} {n : Nat}
    (hlast : ∃ line, lines.getLast? = some line ∧ Filled line)
    (hextent : extent = (lines.zipIdx n).foldl BlockExtent.measure .empty)
    (hm : extent.margin = none) : (lines.zipIdx n).map extent.cut = lines := by
  obtain ⟨last, hlast, hf⟩ := hlast
  have hend : (lines.zipIdx n).getLast? = some (last, n + lines.length - 1) := by
    rw [List.getLast?_zipIdx, hlast]; rfl
  have hzero : n + lines.length - 1 = 0 := by
    refine Decidable.byContradiction fun hz => ?_
    obtain ⟨m, -, he⟩ :=
      BlockExtent.foldl_measure_margin_le_of_mem (List.mem_of_getLast? hend) hf hz .empty
    rw [← hextent, hm] at he
    cases he
  have hcut : ∀ line ∈ lines.zipIdx n, extent.cut line = line.1 := fun line hline => by
    have hlt := List.snd_lt_add_of_mem_zipIdx hline
    rw [BlockExtent.cut, if_pos (by omega)]
  rw [List.map_congr_left hcut]
  exact List.zipIdx_map_fst n lines

/-- What one pass over the lines of a text computes is its value. -/
theorem dedent_eq_blockValue_splitLines (raw : List Char) :
    dedent raw = blockValue (splitLines raw) := by
  rcases exists_filled_part (splitLines raw) with hblank | ⟨before, inside, after, hlines, hbefore,
    hafter, hfirst, hlast⟩
  · have hmargin : ((splitLines raw).zipIdx.foldl BlockExtent.measure .empty).margin = none := by
      rw [BlockExtent.foldl_measure_of_not_filled fun line hline =>
        hblank _ (List.fst_mem_of_mem_zipIdx hline)]
      rfl
    rw [dedent_of_not_filled hblank, blockValue, unindent_of_margin_eq_none hmargin,
      trimLines_of_not_filled hblank]
    rfl
  · obtain ⟨he, -, -⟩ := extent_of_lines rfl hbefore hafter hfirst hlast
    rw [← hlines] at he
    rw [dedent_of_lines hlines hbefore hafter hfirst hlast, ← he, blockValue]
    refine congrArg joinLines (Eq.symm ?_)
    cases hm : ((splitLines raw).zipIdx.foldl BlockExtent.measure .empty).margin with
    | none =>
      rw [unindent_of_margin_eq_none hm, map_cut_of_margin_eq_none hlast he hm, hlines,
        trimLines_append hbefore hafter hfirst hlast]
    | some n =>
      have hends := filled_ends_cut before.length hfirst hlast
      rw [← he] at hends
      rw [unindent_of_margin rfl hm]
      generalize (splitLines raw).zipIdx.foldl BlockExtent.measure .empty = extent at *
      rw [hlines, List.zipIdx_append, List.zipIdx_append, List.map_append, List.map_append,
        Nat.zero_add]
      exact trimLines_append (not_filled_map_cut hbefore _) (not_filled_map_cut hafter _) hends.1
        hends.2

private theorem not_mem_joinLines {lines : List (List Char)}
    (h : ∀ line ∈ lines, hasLineBreak line = false) : '\r' ∉ joinLines lines := by
  have hline (line : List Char) (hmem : line ∈ lines) : '\r' ∉ line := fun hc => by
    have hbreak := List.any_eq_false.1 (h line hmem) '\r' hc
    exact hbreak rfl
  cases lines with
  | nil => exact nofun
  | cons first later =>
    obtain ⟨hfirst, hlater⟩ := List.forall_mem_cons.1 hline
    rw [joinLines_cons, List.mem_append, List.mem_flatMap]
    rintro (hc | ⟨line, hmem, hc⟩)
    · exact hfirst hc
    · exact hlater line hmem (List.mem_of_ne_of_mem (by decide) hc)

/-- Every text has lines, and only these. The value of a raw text is that of its lines, in which there is
no carriage return, and computing it in bytes gives it, too, without any cut that can't be made, as long
as the length of the text is an offset. -/
theorem dedent_eq_blockValue (raw : List Char) :
    ∃ lines, (∀ lines', IsSplit raw lines' ↔ lines' = lines) ∧ dedent raw = blockValue lines ∧
      (∀ limit, utf8Length raw ≤ limit → dedent? limit raw = some (blockValue lines)) ∧
      '\r' ∉ dedent raw := by
  have hvalue := dedent_eq_blockValue_splitLines raw
  refine ⟨splitLines raw, fun lines => isSplit_iff.trans eq_comm, hvalue, fun limit h => ?_, ?_⟩
  · rw [dedent?_eq h, hvalue]
  · rcases dedent_eq_nil_or_settled raw with hnil | ⟨lines, hsettled, hlines⟩
    · rw [hnil]
      exact nofun
    · rw [hlines]
      exact not_mem_joinLines hsettled.solid

/-- All three line breaks, a tab among the indentation, a blank line that is shorter than the margin and
one that is longer, and a character of two bytes behind the margin. -/
theorem dedent_eq_blockValue_mixed :
    dedent? (UInt64.size - 1) "\r\n  a\n \r\t é\n    \n   b\r\n ".toList = some "a\n\né\n  \n b".toList := by
  obtain ⟨lines, -, hvalue, hbytes, -⟩ :=
    dedent_eq_blockValue "\r\n  a\n \r\t é\n    \n   b\r\n ".toList
  rw [hbytes _ (by decide), ← hvalue]
  decide

end GraphQLTree.Text
