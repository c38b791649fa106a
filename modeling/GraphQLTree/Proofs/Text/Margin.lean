import GraphQLTree.Proofs.Text.Dedent
import GraphQLTree.Proofs.Text.Parts
import GraphQLTree.Text.Margin

/-!
# Block strings in bytes and in characters

Slicing lines out of a text gives its lines, as no byte of a longer character is that of a line break
(`sliceLines?_eq`). Indentation has as many bytes as characters, so a pass over lines finds the same
margin in bytes (`Pass.foldl_measure`), and nothing is ever cut where it can't be cut: the value of a raw
text is the same (`dedent?_eq`).
-/

namespace GraphQLTree.Text

/-! ### Bytes -/

@[simp] theorem utf8_nil : utf8 [] = [] :=
  rfl

theorem utf8_cons (c : Char) (cs : List Char) : utf8 (c :: cs) = String.utf8EncodeChar c ++ utf8 cs :=
  List.flatMap_cons

/-- A byte is the number of its character, or it is none of a character that has one byte only. -/
theorem eq_or_le_of_mem_utf8EncodeChar {c : Char} {byte : UInt8}
    (h : byte ∈ String.utf8EncodeChar c) : byte.toNat = c.val.toNat ∨ 0x80 ≤ byte.toNat := by
  have hleading (a b : Nat) (hb : 0x80 ≤ b) (hlt : a + b < 0x100) :
      0x80 ≤ (UInt8.ofNat (a + b)).toNat := by
    rw [UInt8.toNat_ofNat', Nat.mod_eq_of_lt hlt]
    omega
  rw [String.utf8EncodeChar.eq_1] at h
  split at h
  · obtain rfl := List.mem_singleton.1 h
    exact .inl (UInt8.toNat_ofNat_of_lt' (Nat.lt_of_le_of_lt ‹_› (by decide)))
  refine .inr ?_
  split at h
  · simp only [List.mem_cons, List.not_mem_nil, or_false] at h
    rcases h with rfl | rfl <;> exact hleading _ _ (by decide) (by omega)
  split at h
  · simp only [List.mem_cons, List.not_mem_nil, or_false] at h
    rcases h with rfl | rfl | rfl <;> exact hleading _ _ (by decide) (by omega)
  · simp only [List.mem_cons, List.not_mem_nil, or_false] at h
    rcases h with rfl | rfl | rfl | rfl <;> exact hleading _ _ (by decide) (by omega)

/-- A character of which a byte is that of a line break is one. -/
theorem eq_lineFeed_of_mem {c : Char} (h : 0x0A ∈ String.utf8EncodeChar c) : c = '\n' := by
  rcases eq_or_le_of_mem_utf8EncodeChar h with h | h
  · exact Char.ext (UInt32.toNat_inj.1 h.symm)
  · exact absurd h (by decide)

theorem eq_carriageReturn_of_mem {c : Char} (h : 0x0D ∈ String.utf8EncodeChar c) : c = '\r' := by
  rcases eq_or_le_of_mem_utf8EncodeChar h with h | h
  · exact Char.ext (UInt32.toNat_inj.1 h.symm)
  · exact absurd h (by decide)

theorem exists_cons_of_utf8 {cs : List Char} {bytes : List UInt8} (h : utf8 cs = 0x0A :: bytes) :
    ∃ rest, cs = '\n' :: rest := by
  match cs with
  | c :: cs =>
    rw [utf8_cons, List.append_eq_cons_iff] at h
    rcases h with ⟨hnil, -⟩ | ⟨later, hlater, -⟩
    · have hlength := String.length_utf8EncodeChar c
      have hpos := c.utf8Size_pos
      rw [hnil, List.length_nil] at hlength
      omega
    · have hmem : 0x0A ∈ String.utf8EncodeChar c := hlater ▸ List.mem_cons_self
      rw [eq_lineFeed_of_mem hmem]
      exact ⟨cs, rfl⟩

/-! ### Lines -/

/-- A text of one line in front of others makes the first of them longer. -/
theorem splitLines_append {line cs head : List Char} {tail : List (List Char)}
    (h : hasLineBreak line = false) (hcs : splitLines cs = head :: tail) :
    splitLines (line ++ cs) = (line ++ head) :: tail := by
  induction line with
  | nil => exact hcs
  | cons c line ih =>
    rw [hasLineBreak_cons, Bool.or_eq_false_iff] at h
    rw [List.cons_append, splitLines_cons h.1, ih h.2]
    rfl

/-- Bytes that are no line breaks belong to the line at hand. -/
theorem sliceLines?_append (cs : List Char) {bytes : List UInt8}
    (h : ∀ byte ∈ bytes, byte ≠ 0x0A ∧ byte ≠ 0x0D) (start index : Nat) (rest : List UInt8) :
    sliceLines? cs start index (bytes ++ rest) =
      sliceLines? cs start (index + bytes.length) rest := by
  induction bytes generalizing index with
  | nil => rfl
  | cons byte bytes ih =>
    obtain ⟨hbyte, hbytes⟩ := List.forall_mem_cons.1 h
    rw [List.cons_append, sliceLines?.eq_3 _ _ _ _ _ fun _ he => absurd he hbyte.2,
      if_neg (not_or.2 hbyte), ih hbytes, List.length_cons, Nat.add_assoc, Nat.add_comm 1]

/-- A line is sliced out of the text in front of a line break of one byte. -/
theorem sliceLines?_break {byte : UInt8} (hbyte : byte = 0x0A ∨ byte = 0x0D) {bytes : List UInt8}
    (hboth : byte = 0x0D → bytes.head? ≠ some 0x0A) (cs : List Char) (start index : Nat) :
    sliceLines? cs start index (byte :: bytes) = (slice? start index cs).bind fun line =>
      (sliceLines? cs (index + 1) (index + 1) bytes).map (line :: ·) := by
  rw [sliceLines?.eq_3 _ _ _ _ _ fun _ hreturn hfeed => hboth hreturn (by rw [hfeed]; rfl), if_pos hbyte]
  simp only [Option.map_eq_bind]
  rfl

/-- A line is sliced out of the text in front of a line break of two bytes. -/
theorem sliceLines?_both (cs : List Char) (start index : Nat) (bytes : List UInt8) :
    sliceLines? cs start index (0x0D :: 0x0A :: bytes) = (slice? start index cs).bind fun line =>
      (sliceLines? cs (index + 2) (index + 2) bytes).map (line :: ·) := by
  rw [sliceLines?.eq_2]
  simp only [Option.map_eq_bind]
  rfl

/-- Whether lines are sliced out of the rest of a text, of which some of the line at hand has been looked
at. -/
private def SlicesLines (rest : List Char) : Prop :=
  ∀ before line, hasLineBreak line = false →
    sliceLines? (before ++ (line ++ rest)) (utf8Length before) (utf8Length before + utf8Length line)
      (utf8 rest) = some (splitLines (line ++ rest))

/-- Lines are sliced out of the rest of a text behind a line break. -/
private theorem slicesLines_break (breaks : List Char) {cs : List Char} (hcs : SlicesLines cs)
    (hstep : ∀ text start index, sliceLines? text start index (utf8 (breaks ++ cs)) =
      (slice? start index text).bind fun line =>
        (sliceLines? text (index + utf8Length breaks) (index + utf8Length breaks) (utf8 cs)).map
          (line :: ·))
    (hsplit : splitLines (breaks ++ cs) = [] :: splitLines cs) : SlicesLines (breaks ++ cs) := by
  intro before line hline
  have hslice : slice? (utf8Length before) (utf8Length before + utf8Length line)
      (before ++ (line ++ (breaks ++ cs))) = some line :=
    slice?_eq_some_iff.2 ⟨before, breaks ++ cs, rfl, rfl, rfl⟩
  have hrest := hcs (before ++ (line ++ breaks)) [] rfl
  simp only [List.append_assoc, List.nil_append, utf8Length_append, utf8Length_nil, Nat.add_zero,
    ← Nat.add_assoc] at hrest
  rw [hstep, hslice, Option.bind_some, hrest, splitLines_append hline hsplit, List.append_nil]
  rfl

private theorem slicesLines (rest : List Char) : SlicesLines rest := by
  fun_induction splitLines rest with
  | case1 =>
    intro before line hline
    have hdrop : dropAt? (utf8Length before) (before ++ line) = some line :=
      dropAt?_eq_some_iff.2 ⟨before, rfl, rfl⟩
    rw [List.append_nil, utf8_nil, sliceLines?, hdrop, splitLines_eq_singleton hline]
    rfl
  | case2 cs ih => exact slicesLines_break ['\r', '\n'] ih (fun _ _ _ => sliceLines?_both ..) rfl
  | case3 cs ih =>
    exact slicesLines_break ['\n'] ih (fun _ _ _ => sliceLines?_break (.inl rfl) (absurd · (by decide)) ..) rfl
  | case4 cs h ih =>
    have hboth : (utf8 cs).head? ≠ some 0x0A := fun hhead => by
      obtain ⟨bytes, hbytes⟩ := List.head?_eq_some_iff.1 hhead
      obtain ⟨cs', rfl⟩ := exists_cons_of_utf8 hbytes
      exact h cs' rfl
    exact slicesLines_break ['\r'] ih
      (fun _ _ _ => sliceLines?_break (.inr rfl) (fun _ => hboth) ..) (splitLines.eq_4 cs h)
  | case5 c cs hboth hline hreturn ih =>
    intro before line hnone
    have hc : c ≠ '\n' ∧ c ≠ '\r' := ⟨hline, hreturn⟩
    have hbytes : ∀ byte ∈ String.utf8EncodeChar c, byte ≠ 0x0A ∧ byte ≠ 0x0D := by
      intro byte hbyte
      constructor
      · rintro rfl
        exact hc.1 (eq_lineFeed_of_mem hbyte)
      · rintro rfl
        exact hc.2 (eq_carriageReturn_of_mem hbyte)
    have hline' : hasLineBreak (line ++ [c]) = false := by
      simpa [hasLineBreak, hc] using hnone
    have hrest := ih before (line ++ [c]) hline'
    rw [utf8Length_append, ← Nat.add_assoc] at hrest
    have hsize : utf8Length [c] = c.utf8Size := by simp [utf8Length]
    rw [utf8_cons, sliceLines?_append _ hbytes, String.length_utf8EncodeChar, ← hsize]
    simpa using hrest

/-- The lines that are sliced out of a text are its lines. -/
theorem sliceLines?_eq (cs : List Char) : sliceLines? cs 0 0 (utf8 cs) = some (splitLines cs) :=
  slicesLines cs [] [] rfl

/-! ### Indentation -/

theorem utf8Size_of_isIndent {c : Char} (h : isIndent c = true) : c.utf8Size = 1 := by
  rcases Bool.or_eq_true_iff.1 h with h | h <;> rw [eq_of_beq h] <;> rfl

private theorem isIndent_of_mem (line : List Char) : ∀ c ∈ line.takeWhile isIndent, isIndent c = true :=
  List.all_eq_true.1 List.all_takeWhile

/-- Indentation has as many bytes as characters. -/
theorem utf8Length_eq_indentation_add (line : List Char) :
    utf8Length line = indentation line + utf8Length (line.dropWhile isIndent) := by
  have hindent : utf8Length (line.takeWhile isIndent) = indentation line :=
    utf8Length_eq_length fun c hc => utf8Size_of_isIndent (isIndent_of_mem line c hc)
  rw [← hindent, ← utf8Length_append, List.takeWhile_append_dropWhile]

theorem utf8Length_eq_indentation_iff {line : List Char} :
    indentation line = utf8Length line ↔ ¬Filled line := by
  have hbytes := utf8Length_eq_indentation_add line
  have hlength : line.length = indentation line + (line.dropWhile isIndent).length := by
    rw [indentation, ← List.length_append, List.takeWhile_append_dropWhile]
  have hle := length_le_utf8Length (line.dropWhile isIndent)
  rw [Filled, Decidable.not_not]
  refine ⟨fun h => by omega, fun h => ?_⟩
  have hnil : line.dropWhile isIndent = [] := List.eq_nil_of_length_eq_zero (by omega)
  rw [hbytes, hnil]
  rfl

/-- A part of the indentation can be cut off. -/
theorem dropAt?_of_le {line : List Char} {n : Nat} (h : n ≤ indentation line) :
    dropAt? n line = some (line.drop n) := by
  refine dropAt?_eq_some_iff.2 ⟨line.take n, (List.take_append_drop n line).symm, ?_⟩
  have htake : line.take n = (line.takeWhile isIndent).take n := by
    rw [← List.take_append_of_le_length h, List.takeWhile_append_dropWhile]
  rw [htake, utf8Length_eq_length fun c hc =>
    utf8Size_of_isIndent (isIndent_of_mem line c (List.mem_of_mem_take hc)),
    List.length_take_of_le h]

/-! ### Passes -/

namespace Pass

variable {limit : Nat} {extent : BlockExtent}

/-- What a pass has found when it has found an extent and no offset is larger than a limit. -/
def ofExtent (limit : Nat) (extent : BlockExtent) : Pass :=
  ⟨extent.margin.getD limit, extent.first, extent.last⟩

theorem measure_ofExtent {line : List Char × Nat} (h : utf8Length line.1 ≤ limit) :
    (ofExtent limit extent).measure line = ofExtent limit (extent.measure line) := by
  have hbytes := utf8Length_eq_indentation_add line.1
  have hindent : utf8Length line.1 - utf8Length (line.1.dropWhile isIndent) = indentation line.1 := by
    omega
  rw [measure, BlockExtent.measure, hindent]
  by_cases hf : Filled line.1
  · have hlt : indentation line.1 < utf8Length line.1 := by
      have := mt utf8Length_eq_indentation_iff.1 (not_not_intro hf)
      omega
    rw [if_neg (Nat.ne_of_lt hlt), if_neg hf]
    by_cases hz : line.2 = 0
    · simp [ofExtent, hz]
    · cases hm : extent.margin with
      | none =>
        have hlimit : indentation line.1 < limit := Nat.lt_of_lt_of_le hlt h
        simp [ofExtent, hz, hm, hlimit]
      | some margin =>
        simp only [ofExtent, hz, hm, Option.getD_some, ne_eq, not_false_iff, true_and, if_false,
          Pass.mk.injEq, and_true]
        split <;> omega
  · rw [if_pos (utf8Length_eq_indentation_iff.2 hf), if_pos (Decidable.not_not.1 hf)]

theorem foldl_measure {lines : List (List Char × Nat)} (h : ∀ line ∈ lines, utf8Length line.1 ≤ limit) :
    lines.foldl measure (ofExtent limit extent) =
      ofExtent limit (lines.foldl BlockExtent.measure extent) := by
  induction lines generalizing extent with
  | nil => rfl
  | cons line lines ih =>
    obtain ⟨hline, hlines⟩ := List.forall_mem_cons.1 h
    rw [List.foldl_cons, List.foldl_cons, measure_ofExtent hline, ih hlines]

/-- A line is put as it is cut by an extent that took it into account. -/
theorem put?_ofExtent {line : List Char × Nat} (h : utf8Length line.1 ≤ limit)
    (hmargin : Filled line.1 → line.2 ≠ 0 → ∃ m ≤ indentation line.1, extent.margin = some m)
    (first : Nat) (output : List Char) :
    (ofExtent limit extent).put? first output line =
      some ((if first < line.2 then output ++ ['\n'] else output) ++ extent.cut line) := by
  rw [put?, BlockExtent.cut]
  by_cases hz : line.2 = 0
  · rw [if_pos hz, if_pos hz]
  · rw [if_neg hz, if_neg hz]
    cases hm : extent.margin with
    | none => simp [ofExtent, hm, Nat.not_lt.2 h]
    | some m =>
      by_cases hlt : m < utf8Length line.1
      · have hle : m ≤ indentation line.1 := by
          by_cases hf : Filled line.1
          · obtain ⟨n, hn, he⟩ := hmargin hf hz
            rw [hm, Option.some.injEq] at he
            omega
          · rw [utf8Length_eq_indentation_iff.2 hf]
            exact Nat.le_of_lt hlt
        simp [ofExtent, hm, hlt, dropAt?_of_le hle]
      · have hdrop : line.1.drop m = [] := by
          have := length_le_utf8Length line.1
          exact List.drop_eq_nil_of_le (by omega)
        simp [ofExtent, hm, hlt, hdrop]

/-- Lines behind the first are put with a line break in front of each of them. -/
theorem foldlM_put?_ofExtent {lines : List (List Char × Nat)} {first : Nat}
    (hlimit : ∀ line ∈ lines, utf8Length line.1 ≤ limit) (hlt : ∀ line ∈ lines, first < line.2)
    (hmargin : ∀ line ∈ lines, Filled line.1 → line.2 ≠ 0 →
      ∃ m ≤ indentation line.1, extent.margin = some m) (output : List Char) :
    lines.foldlM ((ofExtent limit extent).put? first) output =
      some (output ++ lines.flatMap fun line => '\n' :: extent.cut line) := by
  induction lines generalizing output with
  | nil => simp
  | cons line lines ih =>
    obtain ⟨hline, hlimit⟩ := List.forall_mem_cons.1 hlimit
    obtain ⟨hfirst, hlt⟩ := List.forall_mem_cons.1 hlt
    obtain ⟨hm, hmargin⟩ := List.forall_mem_cons.1 hmargin
    rw [List.foldlM_cons, put?_ofExtent hline hm, if_pos hfirst, Option.bind_eq_bind,
      Option.bind_some, ih hlimit hlt hmargin]
    simp

end Pass

theorem joinLines_cons (line : List Char) (lines : List (List Char)) :
    joinLines (line :: lines) = line ++ lines.flatMap ('\n' :: ·) := by
  induction lines generalizing line with
  | nil => simp
  | cons next lines ih => rw [joinLines_cons_cons, ih, List.flatMap_cons, List.cons_append]

theorem utf8Length_le_of_mem_splitLines (cs : List Char) :
    ∀ line ∈ splitLines cs, utf8Length line ≤ utf8Length cs := by
  fun_induction splitLines cs with
  | case1 => simp
  | case5 c cs _ _ _ ih =>
    cases hcs : splitLines cs with
    | nil => simp [consLine, utf8Length_cons]
    | cons line lines =>
      rw [hcs] at ih
      obtain ⟨hline, hlines⟩ := List.forall_mem_cons.1 ih
      rw [consLine, utf8Length_cons]
      refine List.forall_mem_cons.2 ⟨?_, fun l hl => ?_⟩
      · rw [utf8Length_cons]
        omega
      · have := hlines l hl
        omega
  | case2 cs ih | case3 cs ih | case4 cs h ih =>
    simp only [List.forall_mem_cons, utf8Length_nil, utf8Length_cons]
    exact ⟨Nat.zero_le _, fun line hline => Nat.le_trans (ih line hline) (by omega)⟩

/-- The value of a raw text can be computed in bytes if its length is an offset. -/
theorem dedent?_eq {limit : Nat} {raw : List Char} (h : utf8Length raw ≤ limit) :
    dedent? limit raw = some (dedent raw) := by
  have hlimit : ∀ line ∈ (splitLines raw).zipIdx, utf8Length line.1 ≤ limit := fun line hline =>
    Nat.le_trans (utf8Length_le_of_mem_splitLines raw _ (List.fst_mem_of_mem_zipIdx hline)) h
  have hpass : (splitLines raw).zipIdx.foldl Pass.measure ⟨limit, none, 0⟩ = _ :=
    @Pass.foldl_measure limit .empty _ hlimit
  rw [dedent?, sliceLines?_eq, Option.bind_eq_bind, Option.bind_some, hpass]
  rcases exists_filled_part (splitLines raw) with hblank | ⟨before, inside, after, hlines, hbefore,
    hafter, hfirst, hlast⟩
  · rw [dedent_of_not_filled hblank, BlockExtent.foldl_measure_of_not_filled fun line hline =>
      hblank _ (List.fst_mem_of_mem_zipIdx hline)]
    rfl
  · obtain ⟨he, hn, hpart⟩ := extent_of_lines rfl hbefore hafter hfirst hlast
    rw [← hlines] at he hn hpart
    rw [dedent_of_lines hlines hbefore hafter hfirst hlast, ← he]
    generalize hextent : (splitLines raw).zipIdx.foldl BlockExtent.measure .empty = extent at *
    have hfirst' : (Pass.ofExtent limit extent).first = some before.length := hn
    have hlast' : (Pass.ofExtent limit extent).last = extent.last := rfl
    simp only [hfirst', hlast', hpart]
    have hmargin : ∀ line ∈ inside.zipIdx before.length, Filled line.1 → line.2 ≠ 0 →
        ∃ m ≤ indentation line.1, extent.margin = some m := fun line hline hf hz => by
      rw [he]
      exact BlockExtent.foldl_measure_margin_le_of_mem hline hf hz .empty
    have hlimit' : ∀ line ∈ inside.zipIdx before.length, utf8Length line.1 ≤ limit :=
      fun line hline => hlimit line (List.mem_of_mem_take (List.mem_of_mem_drop (hpart ▸ hline)))
    obtain ⟨head, hhead, -⟩ := hfirst
    obtain ⟨tail, rfl⟩ := List.head?_eq_some_iff.1 hhead
    rw [List.zipIdx_cons] at hmargin hlimit' ⊢
    obtain ⟨hm, hmargin⟩ := List.forall_mem_cons.1 hmargin
    obtain ⟨hl, hlimit'⟩ := List.forall_mem_cons.1 hlimit'
    rw [List.foldlM_cons, Pass.put?_ofExtent hl hm, if_neg (Nat.lt_irrefl _), Option.bind_eq_bind,
      Option.bind_some, Pass.foldlM_put?_ofExtent hlimit'
        (fun line hline => Nat.lt_of_succ_le (List.le_snd_of_mem_zipIdx hline)) hmargin,
      List.map_cons, joinLines_cons, List.flatMap_map, List.nil_append]

end GraphQLTree.Text
