import GraphQLTree.Token.Number

/-!
# Numbers scanned again

What a number is followed by bears on it only through its first character or two. A text is **apart**
from a number when it doesn't start with a digit, a letter, an underscore or a dot, nor, behind an
exponent mark, with a sign; such a text doesn't change how the number is scanned
(`scanNumber_append`). Hence a scanned number scans as itself again, unless it ends in a bare
exponent mark, in which case its text alone is no number (`scanNumber_take`).
-/

namespace GraphQLTree.Token

/-! ### Runs of digits -/

/-- Whether a text doesn't start with a digit. -/
def StopsDigits (cs : List Char) : Prop :=
  ∀ c ∈ cs.head?, isDecimal c = false

theorem countDigits_le (cs : List Char) : countDigits cs ≤ cs.length :=
  (List.takeWhile_prefix isDecimal).length_le

theorem countDigits_cons {c : Char} (h : isDecimal c = true) (cs : List Char) :
    countDigits (c :: cs) = countDigits cs + 1 := by
  simp [countDigits, h]

theorem countDigits_eq_zero {cs : List Char} (h : StopsDigits cs) : countDigits cs = 0 := by
  cases cs with
  | nil => rfl
  | cons c cs => simp [countDigits, h c rfl]

theorem countDigits_append (cs : List Char) {after : List Char} (h : StopsDigits after) :
    countDigits (cs ++ after) = countDigits cs := by
  induction cs with
  | nil => exact countDigits_eq_zero h
  | cons c cs ih =>
    by_cases hc : isDecimal c = true
    · rw [List.cons_append, countDigits_cons hc, countDigits_cons hc, ih]
    · simp [countDigits, hc]

theorem stopsDigits_drop_countDigits (cs : List Char) : StopsDigits (cs.drop (countDigits cs)) := by
  induction cs with
  | nil => simp [StopsDigits]
  | cons c cs ih =>
    by_cases hc : isDecimal c = true
    · rw [countDigits_cons hc, List.drop_succ_cons]
      exact ih
    · rw [countDigits_eq_zero (by simpa [StopsDigits] using hc), List.drop_zero]
      simpa [StopsDigits] using hc

theorem take_countDigits (cs : List Char) : cs.take (countDigits cs) = cs.takeWhile isDecimal :=
  (List.prefix_iff_eq_take.1 (List.takeWhile_prefix isDecimal)).symm

theorem isDecimal_getLast_take_countDigits (cs : List Char) :
    ∀ c ∈ (cs.take (countDigits cs)).getLast?, isDecimal c = true := by
  intro c hc
  rw [take_countDigits] at hc
  exact List.all_eq_true.1 List.all_takeWhile c (List.mem_of_getLast? hc)

/-! ### The parts of a number -/

/-- Whether a text starts with a sign. -/
def startsSigned (cs : List Char) : Bool :=
  cs.head? == some '-' || cs.head? == some '+'

/-- Whether a text doesn't bear on a number in front of it. -/
structure Apart (number after : List Char) : Prop where
  name : ∀ c ∈ after.head?, isNamePart c = false
  dot : after.head? ≠ some '.'
  sign : (number.getLast?.any isExponentMark) = true → startsSigned after = false

namespace Apart

variable {number after : List Char}

theorem stopsDigits (h : Apart number after) : StopsDigits after := by
  intro c hc
  have hname := h.name c hc
  simp only [isNamePart, Bool.or_eq_false_iff] at hname
  exact hname.2

theorem nil (number : List Char) : Apart number [] :=
  ⟨by simp, by simp, fun _ => rfl⟩

theorem clashes_eq_false (h : Apart number after) : clashes after = false := by
  cases after with
  | nil => rfl
  | cons c after =>
    have hname := h.name c rfl
    simp only [isNamePart, Bool.or_eq_false_iff] at hname
    have hdot : c ≠ '.' := by simpa using h.dot
    simp [clashes, hname.1, hdot]

theorem drop (h : Apart number after) (n : Nat) : Apart (number.drop n) after := by
  refine ⟨h.name, h.dot, fun hlast => h.sign ?_⟩
  rw [List.getLast?_drop] at hlast
  split at hlast
  · cases hlast
  · exact hlast

end Apart

theorem minusLength_le (cs : List Char) : minusLength cs ≤ cs.length := by
  cases cs with
  | nil => exact Nat.le_refl 0
  | cons c cs =>
    unfold minusLength
    split <;> simp

theorem fractionLength_le (cs : List Char) : fractionLength cs ≤ cs.length := by
  unfold fractionLength
  split
  · next cs =>
    have := countDigits_le cs
    split
    · exact Nat.zero_le _
    · rw [List.length_cons]; omega
  · exact Nat.zero_le _

theorem fractionLength_append (cs : List Char) {after : List Char} (h : StopsDigits after)
    (hdot : after.head? ≠ some '.') : fractionLength (cs ++ after) = fractionLength cs := by
  cases cs with
  | nil =>
    cases after with
    | nil => rfl
    | cons c after =>
      have hc : c ≠ '.' := by simpa using hdot
      rw [List.nil_append, fractionLength.eq_2 _ fun _ he => hc (List.cons.inj he).1]
      rfl
  | cons c cs =>
    by_cases hc : c = '.'
    · subst hc
      rw [List.cons_append, fractionLength, fractionLength, countDigits_append cs h]
    · rw [List.cons_append, fractionLength.eq_2 _ fun _ he => hc (List.cons.inj he).1,
        fractionLength.eq_2 _ fun _ he => hc (List.cons.inj he).1]

theorem signLength_le (cs : List Char) : signLength cs ≤ cs.length := by
  cases cs with
  | nil => exact Nat.le_refl 0
  | cons c cs =>
    unfold signLength
    split <;> simp

theorem exponentLength_le (cs : List Char) : exponentLength cs ≤ cs.length := by
  cases cs with
  | nil => exact Nat.le_refl 0
  | cons c cs =>
    have h1 := countDigits_le (cs.drop (signLength cs))
    have h2 := signLength_le cs
    rw [List.length_drop] at h1
    simp only [exponentLength, List.length_cons]
    split <;> omega

theorem isExponentMark_eq_false {c : Char} (h : isNamePart c = false) :
    isExponentMark c = false := by
  cases hc : isExponentMark c with
  | false => rfl
  | true =>
    simp only [isExponentMark, Bool.or_eq_true, beq_iff_eq] at hc
    rcases hc with rfl | rfl <;> exact absurd h (by decide)

private theorem exponent_append_aux {cs after : List Char} (h : Apart cs after) :
    exponentLength (cs ++ after) = exponentLength cs ∧
      hasBareExponent (cs ++ after) = hasBareExponent cs := by
  match cs with
  | [] =>
    cases after with
    | nil => exact ⟨rfl, rfl⟩
    | cons c after =>
      have hc := isExponentMark_eq_false (h.name c rfl)
      simp [exponentLength, hasBareExponent, hc]
  | [c] =>
    cases hc : isExponentMark c with
    | false => simp [exponentLength, hasBareExponent, hc]
    | true =>
      have hs : signLength after = 0 := by
        have := h.sign (by simpa using hc)
        simp only [startsSigned] at this
        simp [signLength, this]
      have hnil : signLength [] = 0 ∧ countDigits [] = 0 := ⟨rfl, rfl⟩
      simp [exponentLength, hasBareExponent, hs, countDigits_eq_zero h.stopsDigits, hnil]
  | c :: d :: cs =>
    have hs : signLength (d :: cs ++ after) = signLength (d :: cs) := rfl
    simp only [List.cons_append, exponentLength, hasBareExponent] at hs ⊢
    rw [hs, ← List.cons_append, List.drop_append_of_le_length (signLength_le _),
      countDigits_append _ h.stopsDigits]
    exact ⟨rfl, rfl⟩

theorem exponentLength_append {cs after : List Char} (h : Apart cs after) :
    exponentLength (cs ++ after) = exponentLength cs :=
  (exponent_append_aux h).1

theorem hasBareExponent_append {cs after : List Char} (h : Apart cs after) :
    hasBareExponent (cs ++ after) = hasBareExponent cs :=
  (exponent_append_aux h).2

/-! ### Whole numbers -/

theorem minusLength_append {cs : List Char} (hne : cs ≠ []) (after : List Char) :
    minusLength (cs ++ after) = minusLength cs := by
  cases cs with
  | nil => exact absurd rfl hne
  | cons => rfl

/-- The length of the integer part that a text starts with. -/
def integerLength (cs : List Char) : Nat :=
  minusLength cs + countDigits (cs.drop (minusLength cs))

/-- The length of the number that a text starts with, up to its exponent. -/
def bodyLength (cs : List Char) : Nat :=
  integerLength cs + fractionLength (cs.drop (integerLength cs))

theorem integerLength_le (cs : List Char) : integerLength cs ≤ cs.length := by
  have hminus := minusLength_le cs
  have hdigits := countDigits_le (cs.drop (minusLength cs))
  rw [List.length_drop] at hdigits
  unfold integerLength
  omega

theorem bodyLength_le (cs : List Char) : bodyLength cs ≤ cs.length := by
  have hinteger := integerLength_le cs
  have hfraction := fractionLength_le (cs.drop (integerLength cs))
  rw [List.length_drop] at hfraction
  unfold bodyLength
  omega

section Append

variable {cs after : List Char} (hne : cs ≠ []) (hstop : StopsDigits after)
include hne hstop

theorem countDigits_drop_minusLength_append :
    countDigits ((cs ++ after).drop (minusLength (cs ++ after))) =
      countDigits (cs.drop (minusLength cs)) := by
  rw [minusLength_append hne, List.drop_append_of_le_length (minusLength_le cs),
    countDigits_append _ hstop]

theorem integerLength_append : integerLength (cs ++ after) = integerLength cs := by
  rw [integerLength, countDigits_drop_minusLength_append hne hstop, minusLength_append hne]
  rfl

theorem bodyLength_append (hdot : after.head? ≠ some '.') :
    bodyLength (cs ++ after) = bodyLength cs := by
  rw [bodyLength, integerLength_append hne hstop,
    List.drop_append_of_le_length (integerLength_le cs), fractionLength_append _ hstop hdot]
  rfl

theorem startsZero_append :
    (((cs ++ after).drop (minusLength (cs ++ after))).head? == some '0' &&
        countDigits ((cs ++ after).drop (minusLength (cs ++ after))) != 1) =
      ((cs.drop (minusLength cs)).head? == some '0' &&
        countDigits (cs.drop (minusLength cs)) != 1) := by
  rw [countDigits_drop_minusLength_append hne hstop, minusLength_append hne,
    List.drop_append_of_le_length (minusLength_le cs)]
  cases cs.drop (minusLength cs) with
  | cons => rfl
  | nil =>
    cases after with
    | nil => rfl
    | cons c after =>
      have hc : c ≠ '0' := by
        rintro rfl
        exact absurd (hstop '0' rfl) (by decide)
      simp [hc]

end Append

/-- Scanning a number, in terms of its integer part and its body. -/
theorem scanNumber_eq (cs : List Char) :
    scanNumber cs =
      if countDigits (cs.drop (minusLength cs)) = 0 then (.invalid, 1)
      else if (cs.drop (minusLength cs)).head? == some '0' &&
          countDigits (cs.drop (minusLength cs)) != 1 then (.invalid, integerLength cs)
      else
        let rest := cs.drop (bodyLength cs)
        let size := bodyLength cs + exponentLength rest
        let number (size : Nat) : Token × Nat :=
          let text := String.ofList (cs.take size)
          (if fractionLength (cs.drop (integerLength cs)) + exponentLength rest = 0 then .int text
            else .float text, size)
        if exponentLength rest = 0 && hasBareExponent rest then number (size + 1)
        else if clashes (cs.drop size) then (.invalid, size + 1)
        else number size :=
  rfl

/-- A text that is apart from a number doesn't change how the number is scanned. -/
theorem scanNumber_append {cs after : List Char} (hne : cs ≠ []) (h : Apart cs after) :
    scanNumber (cs ++ after) = scanNumber cs := by
  have hstop := h.stopsDigits
  have hbody := bodyLength_le cs
  have hexponent := exponentLength_le (cs.drop (bodyLength cs))
  rw [List.length_drop] at hexponent
  rw [scanNumber_eq, scanNumber_eq cs, startsZero_append hne hstop,
    countDigits_drop_minusLength_append hne hstop, bodyLength_append hne hstop h.dot,
    integerLength_append hne hstop, List.drop_append_of_le_length hbody,
    List.drop_append_of_le_length (integerLength_le cs), fractionLength_append _ hstop h.dot]
  simp only [exponentLength_append (h.drop (bodyLength cs)),
    hasBareExponent_append (h.drop (bodyLength cs))]
  generalize hs : bodyLength cs + exponentLength (cs.drop (bodyLength cs)) = size
  have hsize : size ≤ cs.length := by omega
  have hclash : clashes ((cs ++ after).drop size) = clashes (cs.drop size) := by
    rw [List.drop_append_of_le_length hsize]
    cases cs.drop size with
    | nil => exact h.clashes_eq_false
    | cons => rfl
  rw [hclash, List.take_append_of_le_length hsize]
  cases hb : exponentLength (cs.drop (bodyLength cs)) = 0 &&
      hasBareExponent (cs.drop (bodyLength cs)) with
  | false => rfl
  | true =>
    simp only [Bool.and_eq_true, decide_eq_true_eq] at hb
    have hlen : 0 < (cs.drop (bodyLength cs)).length :=
      List.length_pos_iff.2 fun he => by simp [he, hasBareExponent] at hb
    rw [List.length_drop] at hlen
    rw [List.take_append_of_le_length (by omega)]

/-- What a text that starts with a number starts with: digits, but no zero in front of others. -/
structure HasInteger (cs : List Char) : Prop where
  digits : countDigits (cs.drop (minusLength cs)) ≠ 0
  zero : ((cs.drop (minusLength cs)).head? == some '0' &&
    countDigits (cs.drop (minusLength cs)) != 1) = false

/-- Behind a body, an exponent mark alone makes no number. -/
theorem scanNumber_concat_mark {cs rest : List Char} {mark : Char} (hne : cs ≠ [])
    (hmark : isExponentMark mark = true) (hinteger : HasInteger (cs ++ mark :: rest))
    (hbody : bodyLength (cs ++ mark :: rest) = cs.length) :
    scanNumber (cs ++ [mark]) = (.invalid, cs.length + 1) := by
  have hc : isDecimal mark = false ∧ mark ≠ '.' ∧ isNameStart mark = true := by
    simp only [isExponentMark, Bool.or_eq_true, beq_iff_eq] at hmark
    rcases hmark with rfl | rfl <;> decide
  have hstop (rest : List Char) : StopsDigits (mark :: rest) := by
    simpa [StopsDigits] using hc.1
  have hdot (rest : List Char) : (mark :: rest).head? ≠ some '.' := by
    simpa using hc.2.1
  obtain ⟨hdigits, hzero⟩ := hinteger
  rw [countDigits_drop_minusLength_append hne (hstop rest)] at hdigits
  rw [startsZero_append hne (hstop rest)] at hzero
  rw [bodyLength_append hne (hstop rest) (hdot rest)] at hbody
  rw [scanNumber_eq, bodyLength_append hne (hstop []) (hdot []), hbody, List.drop_left,
    countDigits_drop_minusLength_append hne (hstop []), if_neg hdigits,
    ← countDigits_drop_minusLength_append hne (hstop []), startsZero_append hne (hstop []), hzero]
  simp [exponentLength, hasBareExponent, clashes, hc, signLength, countDigits]

private theorem isDecimal_getLast_take {cs : List Char} {k size : Nat}
    (hsize : size = k + countDigits (cs.drop k)) (hne : countDigits (cs.drop k) ≠ 0) :
    ∀ c ∈ (cs.take size).getLast?, isDecimal c = true := by
  intro c hc
  rw [hsize, List.take_add, List.getLast?_append] at hc
  refine isDecimal_getLast_take_countDigits (cs.drop k) c ?_
  cases hl : ((cs.drop k).take (countDigits (cs.drop k))).getLast? with
  | none =>
    rw [List.getLast?_eq_none_iff, List.take_eq_nil_iff] at hl
    rcases hl with hl | hl
    · exact absurd hl hne
    · rw [hl] at hne; exact absurd rfl hne
  | some d => rwa [hl] at hc

/-- A text that ends in a whole run of digits. -/
private theorem apart_of_digits {cs : List Char} {k size : Nat}
    (hsize : size = k + countDigits (cs.drop k)) (hne : countDigits (cs.drop k) ≠ 0)
    (hclash : clashes (cs.drop size) = false) : Apart (cs.take size) (cs.drop size) := by
  have hstop : StopsDigits (cs.drop size) := by
    rw [hsize, ← List.drop_drop]
    exact stopsDigits_drop_countDigits _
  refine ⟨?_, ?_, fun hlast => ?_⟩
  · intro c hc
    obtain ⟨l, hl⟩ := List.head?_eq_some_iff.1 hc
    have hdec := hstop c hc
    simp only [hl, clashes, Bool.or_eq_false_iff] at hclash
    rw [isNamePart, hclash.2, hdec]
    rfl
  · intro hc
    obtain ⟨l, hl⟩ := List.head?_eq_some_iff.1 hc
    rw [hl] at hclash
    simp [clashes] at hclash
  · cases hl : (cs.take size).getLast? with
    | none => rw [hl] at hlast; cases hlast
    | some c =>
      have hc : isExponentMark c = true := by simpa [hl] using hlast
      have hd := isDecimal_getLast_take hsize hne c hl
      simp only [isExponentMark, Bool.or_eq_true, beq_iff_eq] at hc
      rcases hc with rfl | rfl <;> exact absurd hd (by decide)

/-- Whether a token is a number with a text. -/
def IsNumber (token : Token) (text : List Char) : Prop :=
  token = .int (String.ofList text) ∨ token = .float (String.ofList text)

/-- A number up to its exponent is a whole run of digits behind something. -/
private theorem exists_digits_body {cs : List Char}
    (hz : countDigits (cs.drop (minusLength cs)) ≠ 0) :
    ∃ k, bodyLength cs = k + countDigits (cs.drop k) ∧ countDigits (cs.drop k) ≠ 0 := by
  unfold bodyLength fractionLength
  split
  · next l hl =>
    have hdrop : cs.drop (integerLength cs + 1) = l := by
      rw [← List.drop_drop, hl, List.drop_one, List.tail_cons]
    split
    · exact ⟨minusLength cs, rfl, hz⟩
    · next h => exact ⟨integerLength cs + 1, by rw [hdrop, Nat.add_assoc], by rwa [hdrop]⟩
  · exact ⟨minusLength cs, rfl, hz⟩

/-- A number with its exponent, if it has one, is a whole run of digits behind something. -/
theorem exists_digits_size {cs : List Char}
    (hz : countDigits (cs.drop (minusLength cs)) ≠ 0) :
    ∃ k, bodyLength cs + exponentLength (cs.drop (bodyLength cs)) = k + countDigits (cs.drop k) ∧
      countDigits (cs.drop k) ≠ 0 := by
  cases hl : cs.drop (bodyLength cs) with
  | nil => exact exists_digits_body hz
  | cons c l =>
    have hdrop : cs.drop (bodyLength cs + 1 + signLength l) = l.drop (signLength l) := by
      rw [← List.drop_drop, ← List.drop_drop, hl, List.drop_one, List.tail_cons]
    simp only [exponentLength]
    split
    · next h =>
      simp only [Bool.and_eq_true, bne_iff_ne] at h
      exact ⟨bodyLength cs + 1 + signLength l, by rw [hdrop]; omega, by rw [hdrop]; exact h.2⟩
    · exact exists_digits_body hz

/-- A bare exponent: a mark and a sign without digits behind it. -/
theorem eq_cons_cons_of_hasBareExponent {cs : List Char} (hexp : exponentLength cs = 0)
    (hbare : hasBareExponent cs = true) :
    ∃ mark sign rest, cs = mark :: sign :: rest ∧ isExponentMark mark = true ∧
      startsSigned (sign :: rest) = true ∧ countDigits rest = 0 := by
  match cs with
  | [] => cases hbare
  | [_] => simp [hasBareExponent, signLength] at hbare
  | mark :: sign :: rest =>
    simp only [hasBareExponent, signLength, Bool.and_eq_true, bne_iff_ne, ne_eq,
      ite_eq_right_iff, Nat.one_ne_zero, imp_false, Decidable.not_not] at hbare
    refine ⟨mark, sign, rest, rfl, hbare.1, hbare.2, ?_⟩
    simp only [exponentLength, signLength, hbare.1, hbare.2, if_true, List.drop_one,
      List.tail_cons, Bool.true_and, bne_iff_ne] at hexp
    split at hexp
    · omega
    · next h => simpa using h

/-- How a number ends: with digits that nothing clashes with, or with a bare exponent mark. -/
private theorem scanNumber_end {cs : List Char} {token : Token} {size : Nat}
    (h : scanNumber cs = (token, size)) (hv : token ≠ .invalid) :
    IsNumber token (cs.take size) ∧ 0 < size ∧ size ≤ cs.length ∧
      ((∃ k, size = k + countDigits (cs.drop k) ∧ countDigits (cs.drop k) ≠ 0 ∧
          clashes (cs.drop size) = false) ∨
        ∃ mark sign rest, cs.drop (bodyLength cs) = mark :: sign :: rest ∧
          size = bodyLength cs + 1 ∧ 0 < bodyLength cs ∧ HasInteger cs ∧
          isExponentMark mark = true ∧ startsSigned (sign :: rest) = true ∧
          countDigits rest = 0) := by
  rw [scanNumber_eq] at h
  split at h
  · exact absurd (Prod.ext_iff.1 h).1.symm hv
  · next hz =>
    split at h
    · exact absurd (Prod.ext_iff.1 h).1.symm hv
    · next hzero =>
      have hsize := exists_digits_size hz
      obtain ⟨k, hk, hkz⟩ := exists_digits_body hz
      have hbody := bodyLength_le cs
      have hexponent := exponentLength_le (cs.drop (bodyLength cs))
      rw [List.length_drop] at hexponent
      have hnumber (n : Nat) : IsNumber (if fractionLength (cs.drop (integerLength cs)) +
          exponentLength (cs.drop (bodyLength cs)) = 0 then .int (String.ofList (cs.take n))
          else .float (String.ofList (cs.take n))) (cs.take n) := by
        split
        · exact .inl rfl
        · exact .inr rfl
      simp only at h
      split at h
      · next hb =>
        simp only [Bool.and_eq_true, decide_eq_true_eq] at hb
        obtain ⟨mark, sign, rest, hdrop, hmark, hsign, hrest⟩ :=
          eq_cons_cons_of_hasBareExponent hb.1 hb.2
        have hlen : (cs.drop (bodyLength cs)).length = rest.length + 2 := by rw [hdrop]; rfl
        rw [List.length_drop] at hlen
        simp only [hb.1, Nat.add_zero, Prod.mk.injEq] at h hnumber
        obtain ⟨rfl, rfl⟩ := h
        refine ⟨hnumber _, by omega, by omega, .inr ?_⟩
        exact ⟨mark, sign, rest, hdrop, rfl, by omega, ⟨hz, by simpa using hzero⟩, hmark, hsign,
          hrest⟩
      · split at h
        · exact absurd (Prod.ext_iff.1 h).1.symm hv
        · next hclash =>
          simp only [Prod.mk.injEq] at h
          obtain ⟨rfl, rfl⟩ := h
          obtain ⟨j, hj, hjz⟩ := hsize
          exact ⟨hnumber _, by omega, by omega, .inl ⟨j, hj, hjz, by simpa using hclash⟩⟩

/-- A scanned number scans as itself again. Otherwise it ends in a bare exponent mark: its text
alone is no number, and no token starts behind it. -/
theorem scanNumber_take {cs : List Char} {token : Token} {size : Nat}
    (h : scanNumber cs = (token, size)) (hv : token ≠ .invalid) :
    IsNumber token (cs.take size) ∧ 0 < size ∧ size ≤ cs.length ∧
      (scanNumber (cs.take size) = (token, size) ∨
        (scanNumber (cs.take size) = (.invalid, size) ∧
          (∃ mark ∈ (cs.take size).getLast?, isExponentMark mark = true) ∧
          ∃ sign rest, cs.drop size = sign :: rest ∧ startsSigned (sign :: rest) = true ∧
            countDigits rest = 0)) := by
  obtain ⟨hnumber, hpos, hle, hend⟩ := scanNumber_end h hv
  refine ⟨hnumber, hpos, hle, ?_⟩
  rcases hend with
    ⟨k, hk, hkz, hclash⟩ | ⟨mark, sign, rest, hdrop, rfl, hb, hinteger, hmark, hsign, hrest⟩
  · left
    have hne : cs.take size ≠ [] := fun he => by
      rcases List.take_eq_nil_iff.1 he with he | he
      · omega
      · rw [he, List.drop_nil] at hkz; exact hkz rfl
    rw [← h, ← scanNumber_append hne (apart_of_digits hk hkz hclash), List.take_append_drop]
  · right
    have hcs : cs = cs.take (bodyLength cs) ++ mark :: sign :: rest := by
      rw [← hdrop, List.take_append_drop]
    have hlen : (cs.take (bodyLength cs)).length = bodyLength cs :=
      List.length_take_of_le (bodyLength_le cs)
    have hne : cs.take (bodyLength cs) ≠ [] := List.ne_nil_of_length_pos (by omega)
    have htake : cs.take (bodyLength cs + 1) = cs.take (bodyLength cs) ++ [mark] := by
      rw [List.take_add, hdrop]; rfl
    rw [htake]
    refine ⟨?_, ⟨mark, by simp, hmark⟩, sign, rest, ?_, hsign, hrest⟩
    · have hinteger : HasInteger (cs.take (bodyLength cs) ++ mark :: sign :: rest) := by
        rwa [← hcs]
      rw [scanNumber_concat_mark hne hmark hinteger (by rw [← hcs, hlen]), hlen]
    · rw [← List.drop_drop, hdrop]; rfl

/-- The last character of a number that its text alone scans as is a digit. -/
theorem isDecimal_getLast_of_scanNumber {cs : List Char} {token : Token}
    (h : scanNumber cs = (token, cs.length)) (hv : token ≠ .invalid) :
    ∀ c ∈ cs.getLast?, isDecimal c = true := by
  obtain ⟨-, -, -, ⟨k, hk, hkz, -⟩ | ⟨mark, sign, rest, hdrop, hsize, -⟩⟩ := scanNumber_end h hv
  · intro c hc
    rw [← List.take_length (l := cs)] at hc
    exact isDecimal_getLast_take hk hkz c hc
  · have hlen : (cs.drop (bodyLength cs)).length = rest.length + 2 := by rw [hdrop]; rfl
    rw [List.length_drop] at hlen
    omega

/-- What stands behind a number that its text alone scans as is apart from it. -/
theorem apart_of_scanNumber {text after : List Char} {token : Token}
    (h : scanNumber (text ++ after) = (token, text.length)) (hv : token ≠ .invalid)
    (hwhole : scanNumber text = (token, text.length)) : Apart text after := by
  obtain ⟨-, -, -, ⟨k, hk, hkz, hclash⟩ | ⟨mark, sign, rest, hdrop, hsize, -, -, hmark, -⟩⟩ :=
    scanNumber_end h hv
  · have hapart := apart_of_digits hk hkz hclash
    rwa [List.take_left, List.drop_left] at hapart
  · -- A number that scans as itself doesn't end in a mark.
    have htake : text = (text ++ after).take (bodyLength (text ++ after)) ++ [mark] := by
      have hleft : text = (text ++ after).take text.length := List.take_left.symm
      rw [hsize, List.take_add, hdrop] at hleft
      exact hleft
    have hdecimal := isDecimal_getLast_of_scanNumber hwhole hv mark (by rw [htake]; simp)
    simp only [isExponentMark, Bool.or_eq_true, beq_iff_eq] at hmark
    rcases hmark with rfl | rfl <;> exact absurd hdecimal (by decide)

end GraphQLTree.Token
