import GraphQLTree.Proofs.Text.Lines
import GraphQLTree.Text.BlockString

/-!
# Values of block strings

A line is **filled** when it has more than indentation. The value of a raw text is made of the
lines from the first to the last filled one (`dedent_of_lines`), so it is empty or its lines are
**settled**: they begin and end with a filled line, and unless there is only one, some filled line
has no indentation (`dedent_eq_nil_or_settled`). Settled lines are their own value, also with an
empty line around them (`dedent_padded`).
-/

namespace GraphQLTree.Text

/-! ### Cutting into lines and joining -/

theorem splitLines_cons {c : Char} (h : hasLineBreak [c] = false) (cs : List Char) :
    splitLines (c :: cs) = consLine c (splitLines cs) := by
  simp only [hasLineBreak, List.any_cons, List.any_nil, Bool.or_false, Bool.or_eq_false_iff,
    beq_eq_false_iff_ne] at h
  rw [splitLines]
  · exact fun _ hc _ => h.2 hc
  · exact h.1
  · exact h.2

theorem hasLineBreak_cons (c : Char) (cs : List Char) :
    hasLineBreak (c :: cs) = (hasLineBreak [c] || hasLineBreak cs) := by
  simp [hasLineBreak]

/-- A text without line breaks is one line. -/
theorem splitLines_eq_singleton {line : List Char} (h : hasLineBreak line = false) :
    splitLines line = [line] := by
  induction line with
  | nil => rfl
  | cons c line ih =>
    rw [hasLineBreak_cons, Bool.or_eq_false_iff] at h
    rw [splitLines_cons h.1, ih h.2]
    rfl

/-- A line feed ends a line. -/
theorem splitLines_append_lineFeed {line : List Char} (h : hasLineBreak line = false)
    (cs : List Char) : splitLines (line ++ '\n' :: cs) = line :: splitLines cs := by
  induction line with
  | nil => rfl
  | cons c line ih =>
    rw [hasLineBreak_cons, Bool.or_eq_false_iff] at h
    rw [List.cons_append, splitLines_cons h.1, ih h.2]
    rfl

theorem joinLines_cons_cons (a b : List Char) (lines : List (List Char)) :
    joinLines (a :: b :: lines) = a ++ '\n' :: joinLines (b :: lines) := by
  simp [joinLines, List.intercalate_cons_cons]

@[simp] theorem joinLines_singleton (a : List Char) : joinLines [a] = a := by
  simp [joinLines]

/-- Lines without line breaks are found again in the text that they are joined to. -/
theorem splitLines_joinLines {lines : List (List Char)} (hne : lines ≠ [])
    (h : ∀ line ∈ lines, hasLineBreak line = false) : splitLines (joinLines lines) = lines := by
  match lines with
  | [] => exact absurd rfl hne
  | [a] => rw [joinLines_singleton, splitLines_eq_singleton (h a (by simp))]
  | a :: b :: rest =>
    rw [joinLines_cons_cons, splitLines_append_lineFeed (h a (by simp)),
      splitLines_joinLines (by simp) fun line hl => h line (by simp_all)]

theorem hasLineBreak_of_mem_splitLines (cs : List Char) :
    ∀ line ∈ splitLines cs, hasLineBreak line = false := by
  fun_induction splitLines cs with
  | case1 => simp [hasLineBreak]
  | case2 cs ih => simpa [hasLineBreak] using ih
  | case3 cs ih => simpa [hasLineBreak] using ih
  | case4 cs h ih => simpa [hasLineBreak] using ih
  | case5 c cs h1 h2 h3 ih =>
    have hc : hasLineBreak [c] = false := by simp_all [hasLineBreak]
    cases hs : splitLines cs with
    | nil => simp [consLine, hc]
    | cons line lines =>
      rw [hs] at ih
      simp only [consLine, List.mem_cons, forall_eq_or_imp] at ih ⊢
      rw [hasLineBreak_cons, hc, ih.1]
      exact ⟨rfl, ih.2⟩

/-! ### The extent of lines -/

/-- Whether a line has more than indentation. -/
def Filled (line : List Char) : Prop :=
  indentation line ≠ line.length

instance (line : List Char) : Decidable (Filled line) :=
  inferInstanceAs (Decidable (_ ≠ _))

theorem indentation_le (line : List Char) : indentation line ≤ line.length :=
  (List.takeWhile_prefix isIndent).length_le

namespace BlockExtent

theorem measure_of_not_filled {line : List Char × Nat} (h : ¬Filled line.1)
    (extent : BlockExtent) : extent.measure line = extent := by
  rw [measure, if_pos (Decidable.not_not.1 h)]

theorem foldl_measure_of_not_filled {lines : List (List Char × Nat)}
    (h : ∀ line ∈ lines, ¬Filled line.1) (extent : BlockExtent) :
    lines.foldl measure extent = extent := by
  induction lines with
  | nil => rfl
  | cons line lines ih =>
    rw [List.foldl_cons, measure_of_not_filled (h line (by simp)), ih fun l hl => h l (by simp [hl])]

/-- A first filled line stays the first one. -/
theorem foldl_measure_first (lines : List (List Char × Nat)) {extent : BlockExtent} {n : Nat}
    (h : extent.first = some n) : (lines.foldl measure extent).first = some n := by
  induction lines generalizing extent with
  | nil => exact h
  | cons line lines ih =>
    refine ih ?_
    rw [measure]
    split
    · exact h
    · rw [h]; rfl

/-- The margin only shrinks. -/
theorem foldl_measure_margin_le (lines : List (List Char × Nat)) {extent : BlockExtent} {n : Nat}
    (h : extent.margin = some n) : ∃ m ≤ n, (lines.foldl measure extent).margin = some m := by
  induction lines generalizing extent n with
  | nil => exact ⟨n, Nat.le_refl n, h⟩
  | cons line lines ih =>
    obtain ⟨k, hk, he⟩ : ∃ k ≤ n, (extent.measure line).margin = some k := by
      rw [measure]
      split
      · exact ⟨n, Nat.le_refl n, h⟩
      · by_cases hz : line.2 = 0
        · exact ⟨n, Nat.le_refl n, by simp [hz, h]⟩
        · exact ⟨min n (indentation line.1), Nat.min_le_left _ _, by simp [hz, h]⟩
    obtain ⟨m, hm, he⟩ := ih he
    exact ⟨m, Nat.le_trans hm hk, he⟩

/-- The margin is at most the indentation of every filled line after the first. -/
theorem foldl_measure_margin_le_of_mem {lines : List (List Char × Nat)} {line : List Char × Nat}
    (hmem : line ∈ lines) (hf : Filled line.1) (hz : line.2 ≠ 0) (extent : BlockExtent) :
    ∃ m ≤ indentation line.1, (lines.foldl measure extent).margin = some m := by
  induction lines generalizing extent with
  | nil => cases hmem
  | cons l lines ih =>
    rw [List.foldl_cons]
    rcases List.mem_cons.1 hmem with rfl | hmem
    · obtain ⟨k, hk, he⟩ : ∃ k ≤ indentation line.1, (extent.measure line).margin = some k := by
        rw [measure, if_neg hf]
        cases hm : extent.margin with
        | none => exact ⟨_, Nat.le_refl _, by simp [hz]⟩
        | some k => exact ⟨_, Nat.min_le_right k _, by simp [hz]⟩
      obtain ⟨m, hm, he⟩ := foldl_measure_margin_le lines he
      exact ⟨m, Nat.le_trans hm hk, he⟩
    · exact ih hmem _

/-- The margin is the indentation of a filled line after the first. -/
theorem foldl_measure_margin_attained (lines : List (List Char × Nat)) (extent : BlockExtent)
    {m : Nat} (h : (lines.foldl measure extent).margin = some m) :
    extent.margin = some m ∨
      ∃ line ∈ lines, Filled line.1 ∧ line.2 ≠ 0 ∧ indentation line.1 = m := by
  induction lines generalizing extent with
  | nil => exact .inl h
  | cons line lines ih =>
    rcases ih (extent.measure line) h with he | ⟨l, hl, hfilled⟩
    · rw [measure] at he
      split at he
      · exact .inl he
      · next hf =>
        by_cases hz : line.2 = 0
        · exact .inl (by simpa [hz] using he)
        · refine Decidable.or_iff_not_imp_left.2 fun hne => ⟨line, by simp, hf, hz, ?_⟩
          simp only [hz, if_false, Option.some.injEq] at he
          split at he
          · next k hk =>
            rw [hk, Option.some.injEq] at hne
            omega
          · exact he
    · exact .inr ⟨l, by simp [hl], hfilled⟩

end BlockExtent

/-! ### Values -/

/-- Any lines are blank, or blank up to a filled line and after a filled line. -/
theorem exists_filled_part (lines : List (List Char)) :
    (∀ line ∈ lines, ¬Filled line) ∨
      ∃ before inside after, lines = before ++ inside ++ after ∧
        (∀ line ∈ before, ¬Filled line) ∧ (∀ line ∈ after, ¬Filled line) ∧
        (∃ line, inside.head? = some line ∧ Filled line) ∧
        ∃ line, inside.getLast? = some line ∧ Filled line := by
  induction lines with
  | nil => exact .inl (by simp)
  | cons line lines ih =>
    by_cases hf : Filled line
    · refine .inr ?_
      rcases ih with hblank | ⟨before, inside, after, rfl, -, hafter, -, last, hlast, hlf⟩
      · exact ⟨[], [line], lines, rfl, by simp, hblank, ⟨line, rfl, hf⟩, line, rfl, hf⟩
      · refine ⟨[], line :: (before ++ inside), after, by simp, by simp, hafter,
          ⟨line, rfl, hf⟩, last, ?_, hlf⟩
        rw [← List.cons_append, List.getLast?_append, hlast]
        rfl
    · rcases ih with hblank | ⟨before, inside, after, rfl, hbefore, hrest⟩
      · exact .inl (by simpa [hf] using hblank)
      · exact .inr ⟨line :: before, inside, after, by simp, by simpa [hf] using hbefore, hrest⟩

private theorem not_filled_zipIdx {lines : List (List Char)} (h : ∀ line ∈ lines, ¬Filled line)
    (n : Nat) : ∀ line ∈ lines.zipIdx n, ¬Filled line.1 :=
  fun _ hl => h _ (List.fst_mem_of_mem_zipIdx hl)

/-- The extent of lines that begin and end with a filled line reaches over all of them. -/
theorem foldl_measure_of_filled {lines : List (List Char)} {n : Nat}
    (hfirst : ∃ line, lines.head? = some line ∧ Filled line)
    (hlast : ∃ line, lines.getLast? = some line ∧ Filled line) :
    ((lines.zipIdx n).foldl BlockExtent.measure .empty).first = some n ∧
      ((lines.zipIdx n).foldl BlockExtent.measure .empty).last + 1 = n + lines.length := by
  constructor
  · obtain ⟨line, hline, hf⟩ := hfirst
    obtain ⟨tail, rfl⟩ := List.head?_eq_some_iff.1 hline
    rw [List.zipIdx_cons, List.foldl_cons]
    refine BlockExtent.foldl_measure_first _ ?_
    rw [BlockExtent.measure, if_neg hf]
    rfl
  · obtain ⟨line, hline, hf⟩ := hlast
    obtain ⟨init, rfl⟩ := List.getLast?_eq_some_iff.1 hline
    rw [List.zipIdx_append, List.foldl_append, List.zipIdx_singleton, List.foldl_cons,
      List.foldl_nil, BlockExtent.measure, if_neg hf, List.length_append, List.length_singleton]
    exact Nat.add_assoc n init.length 1

/-- The extent of lines that are blank but for a part that begins and ends with a filled line is that of
the part, and it reaches over the part. -/
theorem extent_of_lines {before inside after : List (List Char)} {extent : BlockExtent}
    (hextent : (before ++ inside ++ after).zipIdx.foldl BlockExtent.measure .empty = extent)
    (hbefore : ∀ line ∈ before, ¬Filled line) (hafter : ∀ line ∈ after, ¬Filled line)
    (hfirst : ∃ line, inside.head? = some line ∧ Filled line)
    (hlast : ∃ line, inside.getLast? = some line ∧ Filled line) :
    extent = (inside.zipIdx before.length).foldl BlockExtent.measure .empty ∧
      extent.first = some before.length ∧
      ((before ++ inside ++ after).zipIdx.take (extent.last + 1)).drop before.length =
        inside.zipIdx before.length := by
  have he : extent = (inside.zipIdx before.length).foldl BlockExtent.measure .empty := by
    rw [← hextent, List.zipIdx_append, List.zipIdx_append, List.foldl_append, List.foldl_append,
      BlockExtent.foldl_measure_of_not_filled (not_filled_zipIdx hafter _),
      BlockExtent.foldl_measure_of_not_filled (not_filled_zipIdx hbefore _), Nat.zero_add]
  obtain ⟨hn, hm⟩ := foldl_measure_of_filled (n := before.length) hfirst hlast
  rw [← he] at hn hm
  refine ⟨he, hn, ?_⟩
  rw [hm, List.zipIdx_append, List.zipIdx_append, List.take_left', List.drop_left', Nat.zero_add]
  · exact List.length_zipIdx
  · simp

/-- The value of lines that are blank but for a part that begins and ends with a filled line: what
lies in that part, cut by its own extent. -/
theorem dedent_of_lines {raw : List Char} {before inside after : List (List Char)}
    (hlines : splitLines raw = before ++ inside ++ after)
    (hbefore : ∀ line ∈ before, ¬Filled line) (hafter : ∀ line ∈ after, ¬Filled line)
    (hfirst : ∃ line, inside.head? = some line ∧ Filled line)
    (hlast : ∃ line, inside.getLast? = some line ∧ Filled line) :
    dedent raw = joinLines ((inside.zipIdx before.length).map
      ((inside.zipIdx before.length).foldl BlockExtent.measure .empty).cut) := by
  obtain ⟨he, hn, hpart⟩ := extent_of_lines rfl hbefore hafter hfirst hlast
  rw [dedent]
  simp only [hlines, hn, hpart]
  rw [he]

/-- The value of blank lines. -/
theorem dedent_of_not_filled {raw : List Char} (h : ∀ line ∈ splitLines raw, ¬Filled line) :
    dedent raw = [] := by
  rw [dedent]
  simp only [BlockExtent.foldl_measure_of_not_filled (not_filled_zipIdx h 0)]
  rfl

/-- Lines that begin and end with a filled line, one of which has no indentation, unless there is
only one line. -/
structure Settled (lines : List (List Char)) : Prop where
  solid : ∀ line ∈ lines, hasLineBreak line = false
  first : ∃ line, lines.head? = some line ∧ Filled line
  last : ∃ line, lines.getLast? = some line ∧ Filled line
  flush : lines.length = 1 ∨ ∃ line ∈ lines, Filled line ∧ indentation line = 0

namespace Settled

variable {lines : List (List Char)}

theorem ne_nil (h : Settled lines) : lines ≠ [] := by
  obtain ⟨line, hl, -⟩ := h.first
  rintro rfl
  cases hl

theorem splitLines_joinLines (h : Settled lines) : splitLines (joinLines lines) = lines :=
  Text.splitLines_joinLines h.ne_nil h.solid

end Settled

theorem indentation_drop {line : List Char} {n : Nat} (h : n ≤ indentation line) :
    indentation (line.drop n) = indentation line - n := by
  induction n generalizing line with
  | zero => rfl
  | succ n ih =>
    cases line with
    | nil => cases h
    | cons c line =>
      by_cases hc : isIndent c = true
      · have hcons : indentation (c :: line) = indentation line + 1 := by simp [indentation, hc]
        rw [List.drop_succ_cons, ih (by omega)]
        omega
      · have hcons : indentation (c :: line) = 0 := by simp [indentation, hc]
        omega

theorem hasLineBreak_drop {line : List Char} (h : hasLineBreak line = false) (n : Nat) :
    hasLineBreak (line.drop n) = false := by
  simp only [hasLineBreak, List.any_eq_false] at h ⊢
  exact fun c hc => h c (List.mem_of_mem_drop hc)

namespace BlockExtent

theorem hasLineBreak_cut (extent : BlockExtent) {line : List Char × Nat}
    (h : hasLineBreak line.1 = false) : hasLineBreak (extent.cut line) = false := by
  unfold cut
  split
  · exact h
  · split
    · exact hasLineBreak_drop h _
    · rfl

/-- Cutting by a margin within the indentation. -/
theorem cut_of_margin {extent : BlockExtent} {m : Nat} (hm : extent.margin = some m)
    {line : List Char × Nat} (hz : line.2 ≠ 0) : extent.cut line = line.1.drop m := by
  rw [cut, if_neg hz, hm]

theorem filled_drop {line : List Char} {m : Nat} (h : Filled line) (hm : m ≤ indentation line) :
    Filled (line.drop m) := by
  have hle := indentation_le line
  simp only [Filled, indentation_drop hm, List.length_drop] at h ⊢
  omega

/-- Filled lines stay filled when they are cut by their own extent. -/
theorem filled_cut {lines : List (List Char × Nat)} {line : List Char × Nat} (hmem : line ∈ lines)
    (hf : Filled line.1) : Filled ((lines.foldl measure .empty).cut line) := by
  by_cases hz : line.2 = 0
  · rw [cut, if_pos hz]
    exact hf
  · obtain ⟨m, hle, hm⟩ := foldl_measure_margin_le_of_mem hmem hf hz .empty
    rw [cut_of_margin hm hz]
    exact filled_drop hf hle

end BlockExtent

/-- Lines that begin and end with a filled line still do when they are cut by their own extent. -/
theorem filled_ends_cut {lines : List (List Char)} (n : Nat)
    (hfirst : ∃ line, lines.head? = some line ∧ Filled line)
    (hlast : ∃ line, lines.getLast? = some line ∧ Filled line) :
    (∃ line, ((lines.zipIdx n).map ((lines.zipIdx n).foldl BlockExtent.measure .empty).cut).head? =
        some line ∧ Filled line) ∧
      ∃ line, ((lines.zipIdx n).map ((lines.zipIdx n).foldl BlockExtent.measure .empty).cut).getLast? =
        some line ∧ Filled line := by
  obtain ⟨first, hfirst, hff⟩ := hfirst
  obtain ⟨last, hlast, hlf⟩ := hlast
  have hhead : (lines.zipIdx n).head? = some (first, n) := by
    rw [List.head?_zipIdx, hfirst]; rfl
  have hend : (lines.zipIdx n).getLast? = some (last, n + lines.length - 1) := by
    rw [List.getLast?_zipIdx, hlast]; rfl
  rw [List.head?_map, hhead, List.getLast?_map, hend]
  exact ⟨⟨_, rfl, BlockExtent.filled_cut (List.mem_of_head? hhead) hff⟩,
    _, rfl, BlockExtent.filled_cut (List.mem_of_getLast? hend) hlf⟩

/-- Every value is empty or made of settled lines. -/
theorem dedent_eq_nil_or_settled (raw : List Char) :
    dedent raw = [] ∨ ∃ lines, Settled lines ∧ dedent raw = joinLines lines := by
  rcases exists_filled_part (splitLines raw) with
    hblank | ⟨before, inside, after, hlines, hbefore, hafter, hfirst, hlast⟩
  · exact .inl (dedent_of_not_filled hblank)
  refine .inr ⟨_, ?_, dedent_of_lines hlines hbefore hafter hfirst hlast⟩
  have hends := filled_ends_cut before.length hfirst hlast
  generalize hxs : inside.zipIdx before.length = xs at *
  have hcut {line : List Char × Nat} (hmem : line ∈ xs) (hf : Filled line.1) :=
    BlockExtent.filled_cut hmem hf
  obtain ⟨first, hfirst, hff⟩ := hfirst
  obtain ⟨last, hlast, hlf⟩ := hlast
  have hxlast : xs.getLast? = some (last, before.length + inside.length - 1) := by
    rw [← hxs, List.getLast?_zipIdx, hlast]; rfl
  constructor
  -- Lines have no line breaks, so neither has what is left of them.
  case solid =>
    intro line hl
    obtain ⟨x, hx, rfl⟩ := List.mem_map.1 hl
    refine BlockExtent.hasLineBreak_cut _ (hasLineBreak_of_mem_splitLines raw x.1 ?_)
    have hmem : x.1 ∈ inside := List.fst_mem_of_mem_zipIdx (hxs ▸ hx)
    simp [hlines, hmem]
  case first => exact hends.1
  case last => exact hends.2
  -- The margin is the indentation of some line, which has none when it is cut.
  case flush =>
    by_cases hz : before.length + inside.length - 1 = 0
    · left
      have : 0 < inside.length := List.length_pos_iff.2 fun he => by simp [he] at hfirst
      rw [List.length_map, ← hxs, List.length_zipIdx]
      omega
    · right
      obtain ⟨m, -, hm⟩ := BlockExtent.foldl_measure_margin_le_of_mem
        (List.mem_of_getLast? hxlast) hlf hz .empty
      rcases BlockExtent.foldl_measure_margin_attained xs .empty hm with h | ⟨x, hx, hf, hxz, hi⟩
      · cases h
      · refine ⟨_, List.mem_map.2 ⟨x, hx, rfl⟩, hcut hx hf, ?_⟩
        rw [BlockExtent.cut_of_margin hm hxz, indentation_drop (Nat.le_of_eq hi.symm), hi,
          Nat.sub_self]

/-! ### Values of values -/

namespace Settled

variable {lines : List (List Char)}

/-- Settled lines are their own value, also with empty lines around them, if the line without
indentation counts. -/
theorem dedent_eq {raw : List Char} (h : Settled lines) {before after : List (List Char)}
    (hlines : splitLines raw = before ++ lines ++ after)
    (hbefore : ∀ line ∈ before, ¬Filled line) (hafter : ∀ line ∈ after, ¬Filled line)
    (hflush : before = [] ∧ lines.length = 1 ∨
      ∃ line ∈ lines.zipIdx before.length, Filled line.1 ∧ line.2 ≠ 0 ∧ indentation line.1 = 0) :
    dedent raw = joinLines lines := by
  rw [dedent_of_lines hlines hbefore hafter h.first h.last]
  congr 1
  rcases hflush with ⟨rfl, hlen⟩ | ⟨line, hmem, hf, hz, hi⟩
  · obtain ⟨line, rfl⟩ := List.length_eq_one_iff.1 hlen
    rfl
  · obtain ⟨m, hle, hm⟩ := BlockExtent.foldl_measure_margin_le_of_mem hmem hf hz .empty
    obtain rfl : m = 0 := by omega
    have hcut (x : List Char × Nat) : BlockExtent.cut
        ((lines.zipIdx before.length).foldl BlockExtent.measure .empty) x = x.1 := by
      by_cases hx : x.2 = 0
      · rw [BlockExtent.cut, if_pos hx]
      · rw [BlockExtent.cut_of_margin hm hx, List.drop_zero]
    rw [List.map_congr_left fun x _ => hcut x]
    exact List.zipIdx_map_fst _ _

end Settled

/-- Lines of which the last isn't empty are found again by the other way to cut lines, too. -/
theorem terminatedLines_joinLines {lines : List (List Char)}
    (h : ∀ line ∈ lines, hasLineBreak line = false) (hlast : lines.getLast? ≠ some []) :
    terminatedLines (joinLines lines) = lines := by
  match lines with
  | [] => rfl
  | [a] => exact (joinLines_singleton a).symm ▸
      terminatedLines_eq_singleton (not_mem_of_hasLineBreak (h a (by simp))).1 (by simpa using hlast)
  | a :: b :: rest =>
    rw [joinLines_cons_cons, terminatedLines_append_lineFeed (h a (by simp)),
      terminatedLines_joinLines (fun line hl => h line (by simp_all)) (by simpa using hlast)]

theorem joinLines_concat_nil {lines : List (List Char)} (hne : lines ≠ []) :
    joinLines (lines ++ [[]]) = joinLines lines ++ ['\n'] := by
  match lines with
  | [] => exact absurd rfl hne
  | [a] => simp [joinLines_cons_cons]
  | a :: b :: rest =>
    have ih : joinLines (b :: rest ++ [[]]) = joinLines (b :: rest) ++ ['\n'] :=
      joinLines_concat_nil (by simp)
    simp only [List.cons_append] at ih ⊢
    rw [joinLines_cons_cons, joinLines_cons_cons, ih, List.append_assoc, List.cons_append]

theorem joinLines_nil_cons {lines : List (List Char)} (hne : lines ≠ []) :
    joinLines ([] :: lines) = '\n' :: joinLines lines := by
  cases lines with
  | nil => exact absurd rfl hne
  | cons a rest => rw [joinLines_cons_cons, List.nil_append]

/-- The empty lines that a value is written with before it or after it. -/
private def padding (padded : Bool) : List (List Char) :=
  if padded then [[]] else []

private theorem eq_nil_of_mem_padding {padded : Bool} {line : List Char}
    (h : line ∈ padding padded) : line = [] := by
  cases padded <;> simp_all [padding]

private theorem not_filled_of_mem_padding (padded : Bool) :
    ∀ line ∈ padding padded, ¬Filled line := by
  intro line hl
  rw [eq_nil_of_mem_padding hl]
  decide

namespace Settled

variable {lines : List (List Char)}

private theorem splitLines_padded (h : Settled lines) (before after : Bool) :
    splitLines (joinLines (padding before ++ lines ++ padding after)) =
      padding before ++ lines ++ padding after := by
  refine Text.splitLines_joinLines (by simp [h.ne_nil]) fun line hl => ?_
  simp only [List.mem_append] at hl
  rcases hl with (hl | hl) | hl
  · rw [eq_nil_of_mem_padding hl]; rfl
  · exact h.solid line hl
  · rw [eq_nil_of_mem_padding hl]; rfl

private theorem joinLines_padded (h : Settled lines) (before after : Bool) :
    joinLines (padding before ++ lines ++ padding after) =
      (if before then ['\n'] else []) ++ joinLines lines ++ if after then ['\n'] else [] := by
  have hne := h.ne_nil
  cases before <;> cases after <;>
    simp [padding, joinLines_nil_cons, joinLines_concat_nil, hne]

theorem terminatedLines_joinLines (h : Settled lines) :
    terminatedLines (joinLines lines) = lines := by
  refine Text.terminatedLines_joinLines h.solid fun hl => ?_
  obtain ⟨line, hlast, hf⟩ := h.last
  rw [hl] at hlast
  injection hlast with hlast
  rw [← hlast] at hf
  exact hf rfl

/-- Where the first line needs no line of its own, a later one has no indentation. -/
private theorem exists_flush_of_not_needsOwnLine (h : Settled lines)
    (hown : needsOwnLine (joinLines lines) = false) :
    lines.length = 1 ∨
      ∃ line ∈ lines.zipIdx, Filled line.1 ∧ line.2 ≠ 0 ∧ indentation line.1 = 0 := by
  rw [needsOwnLine, h.terminatedLines_joinLines] at hown
  match lines, h.ne_nil with
  | [_], _ => exact .inl rfl
  | first :: second :: rest, _ =>
    right
    simp only [List.tail_cons, List.all_eq_false] at hown
    obtain ⟨line, hl, hhead⟩ := hown
    obtain ⟨n, hn⟩ := List.mem_iff_getElem?.1 hl
    refine ⟨(line, n + 1), List.mk_mem_zipIdx_iff_getElem?.2 (by simpa using hn), ?_⟩
    cases line with
    | nil => exact absurd rfl hhead
    | cons c line =>
      have hi : indentation (c :: line) = 0 := by
        have hc : isIndent c = false := by simpa using hhead
        simp [indentation, hc]
      exact ⟨by simp [Filled, hi], Nat.succ_ne_zero n, hi⟩

/-- Where the first line needs a line of its own, there are several. -/
private theorem exists_flush_of_needsOwnLine (h : Settled lines)
    (hown : needsOwnLine (joinLines lines) = true) :
    ∃ line ∈ lines.zipIdx 1, Filled line.1 ∧ line.2 ≠ 0 ∧ indentation line.1 = 0 := by
  rw [needsOwnLine, h.terminatedLines_joinLines] at hown
  rcases h.flush with hlen | ⟨line, hl, hf, hi⟩
  · obtain ⟨line, rfl⟩ := List.length_eq_one_iff.1 hlen
    cases hown
  · obtain ⟨n, hn⟩ := List.mem_iff_getElem?.1 hl
    refine ⟨(line, 1 + n), List.mk_add_mem_zipIdx_iff_getElem?.2 hn, hf, ?_, hi⟩
    exact Nat.ne_of_gt (Nat.lt_of_lt_of_le Nat.one_pos (Nat.le_add_right 1 n))

end Settled

/-- The raw text that a value is written as. -/
def writtenRaw (value : List Char) : List Char :=
  (if needsOwnLine value then ['\n'] else []) ++ value ++
    if needsOwnLine value || endsOpen (escapeBlock value) then ['\n'] else []

/-- The value of a written value is that value. -/
theorem dedent_writtenRaw (raw : List Char) : dedent (writtenRaw (dedent raw)) = dedent raw := by
  rcases dedent_eq_nil_or_settled raw with h | ⟨lines, h, hvalue⟩
  · rw [h]; decide
  rw [hvalue]
  generalize hafter :
    (needsOwnLine (joinLines lines) || endsOpen (escapeBlock (joinLines lines))) = after
  have hsplit (before : Bool) (hown : needsOwnLine (joinLines lines) = before) :
      splitLines (writtenRaw (joinLines lines)) = padding before ++ lines ++ padding after := by
    rw [writtenRaw, hafter, hown, ← h.joinLines_padded, h.splitLines_padded]
  cases hown : needsOwnLine (joinLines lines) with
  | true =>
    exact h.dedent_eq (hsplit true hown) (not_filled_of_mem_padding _)
      (not_filled_of_mem_padding _) (.inr (h.exists_flush_of_needsOwnLine hown))
  | false =>
    refine h.dedent_eq (hsplit false hown) (not_filled_of_mem_padding _)
      (not_filled_of_mem_padding _) ?_
    exact (h.exists_flush_of_not_needsOwnLine hown).imp (fun hlen => ⟨rfl, hlen⟩) id

end GraphQLTree.Text
