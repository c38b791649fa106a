import Mathlib.Data.List.TakeWhile
import GraphQLTree.Proofs.Token.Literal
import GraphQLTree.Proofs.Token.Tiles

/-!
# Numbers in a text

What is read where a number could start is said here by the grammar of numbers and by the one character
behind them. A literal is a number if the text behind it **may follow** a number: it doesn't start with a
digit, a letter, an underscore or a dot. The scanner looks for the parts of a number one after the other
and for that character last, and it finds a number where the grammar has one and nowhere else
(`Token.scanNumber_eq_int_iff`, `Token.scanNumber_eq_float_iff`). Everything else is invalid.

There is one more way to end a number: a literal without exponent in front of an exponent mark and a sign
that no digit follows is read together with the mark.

Every token of a text is scanned where it starts (`Scrap.exists_of_mem_places`), so that this is what is
read wherever a token starts with a minus or a digit (`mem_places_number`).
-/

namespace GraphQLTree

namespace Token

/-- Whether a text may stand behind a number: it doesn't start with a digit, a letter, an underscore or a
dot. -/
def MayFollow (after : List Char) : Prop :=
  ∀ c ∈ after.head?, c ≠ '.' ∧ isNamePart c = false

/-- An integer and a fraction, which is a float without exponent. -/
def IsPointed (text : List Char) : Prop :=
  ∃ integer fraction, text = integer ++ fraction ∧ IsInteger integer ∧ IsFraction fraction

/-- A sign that no digit follows. -/
def StartsBareSign (after : List Char) : Prop :=
  ∃ sign rest, after = sign :: rest ∧ sign ∈ ['-', '+'] ∧ StopsDigits rest

/-- Whether a text starts with a number of some form: a literal that the rest may follow, or a literal
without exponent and with an exponent mark behind it, in front of a sign without digits. -/
def StartsNumeral (IsLiteral IsMantissa : List Char → Prop) (number text : List Char) : Prop :=
  ∃ after, text = number ++ after ∧
    (IsLiteral number ∧ MayFollow after ∨ EndsBare IsMantissa number ∧ StartsBareSign after)

/-! ### The parts of a number -/

theorem MayFollow.stopsDigits {after : List Char} (h : MayFollow after) : StopsDigits after := by
  intro c hc
  have hname := (h c hc).2
  rw [isNamePart, Bool.or_eq_false_iff] at hname
  exact hname.2

theorem MayFollow.head?_ne {after : List Char} (h : MayFollow after) : after.head? ≠ some '.' :=
  fun hdot => (h '.' hdot).1 rfl

theorem IsDigits.exists_cons {digits : List Char} (h : IsDigits digits) :
    ∃ d rest, digits = d :: rest ∧ isDecimal d = true := by
  obtain ⟨d, rest, rfl⟩ := List.exists_cons_of_ne_nil h.1
  exact ⟨d, rest, rfl, h.2 d List.mem_cons_self⟩

theorem IsDigits.countDigits {digits after : List Char} (h : IsDigits digits)
    (hstop : StopsDigits after) : countDigits (digits ++ after) = digits.length := by
  rw [countDigits_append _ hstop, Token.countDigits, List.takeWhile_eq_self_iff.2 h.2]

private theorem ne_of_isDecimal {c d : Char} (hc : isDecimal c = true) (hd : isDecimal d = false) :
    c ≠ d := by
  rintro rfl
  rw [hc] at hd
  cases hd

theorem IsInteger.hasInteger {integer after : List Char} (h : IsInteger integer)
    (hstop : StopsDigits after) :
    HasInteger (integer ++ after) ∧ integerLength (integer ++ after) = integer.length := by
  obtain ⟨minus, digits, rfl, hminus, hdigits, hzero⟩ := h
  have hlength : minusLength (minus ++ digits ++ after) = minus.length := by
    obtain ⟨d, rest, rfl, hd⟩ := hdigits.exists_cons
    have hne : d ≠ '-' := ne_of_isDecimal hd (by decide)
    simp only [List.mem_cons, List.not_mem_nil, or_false] at hminus
    rcases hminus with rfl | rfl <;> simp [minusLength, hne]
  have hdrop : (minus ++ digits ++ after).drop minus.length = digits ++ after := by
    rw [List.append_assoc, List.drop_left]
  have hcount := hdigits.countDigits hstop
  have hpos := List.length_pos_iff.2 hdigits.1
  refine ⟨⟨?_, ?_⟩, ?_⟩
  · rw [hlength, hdrop, hcount]
    exact Nat.ne_of_gt hpos
  · rw [hlength, hdrop, hcount]
    by_cases hhead : digits.head? = some '0'
    · rw [hzero hhead]
      rfl
    · rw [List.head?_append, Option.or_of_isSome (by simp [hdigits.1])]
      simp [hhead]
  · rw [integerLength, hlength, hdrop, hcount, List.length_append]

theorem fractionLength_of_isFraction {fraction after : List Char} (h : IsFraction fraction)
    (hstop : StopsDigits after) : fractionLength (fraction ++ after) = fraction.length := by
  obtain ⟨digits, rfl, hdigits⟩ := h
  have hpos := List.length_pos_iff.2 hdigits.1
  rw [List.cons_append, fractionLength, hdigits.countDigits hstop, if_neg (Nat.ne_of_gt hpos),
    List.length_cons, Nat.add_comm]

theorem fractionLength_of_head?_ne {after : List Char} (h : after.head? ≠ some '.') :
    fractionLength after = 0 := by
  unfold fractionLength
  split
  · exact absurd rfl h
  · rfl

theorem exponentLength_of_isExponent {exponent after : List Char} (h : IsExponent exponent)
    (hstop : StopsDigits after) : exponentLength (exponent ++ after) = exponent.length := by
  obtain ⟨mark, sign, digits, rfl, hmark, hsign, hdigits⟩ := h
  have hlength : signLength (sign ++ digits ++ after) = sign.length := by
    obtain ⟨d, rest, rfl, hd⟩ := hdigits.exists_cons
    have hminus : d ≠ '-' := ne_of_isDecimal hd (by decide)
    have hplus : d ≠ '+' := ne_of_isDecimal hd (by decide)
    simp only [List.mem_cons, List.not_mem_nil, or_false] at hsign
    rcases hsign with rfl | rfl | rfl <;> simp [signLength, hminus, hplus]
  have hpos := List.length_pos_iff.2 hdigits.1
  rw [List.cons_append, exponentLength, hlength, List.append_assoc, List.drop_left,
    hdigits.countDigits hstop, if_pos]
  · simp only [List.length_cons, List.length_append]
    omega
  · simp [isExponentMark_iff.2 hmark, Nat.ne_of_gt hpos]

/-- What may follow a number starts with no exponent, not even with the mark of one. -/
theorem MayFollow.exponent {after : List Char} (h : MayFollow after) :
    exponentLength after = 0 ∧ hasBareExponent after = false := by
  cases after with
  | nil => exact ⟨rfl, rfl⟩
  | cons c after =>
    have hmark := isExponentMark_eq_false (h c rfl).2
    simp [exponentLength, hasBareExponent, hmark]

theorem MayFollow.clashes {after : List Char} (h : MayFollow after) : clashes after = false := by
  cases after with
  | nil => rfl
  | cons c after =>
    obtain ⟨hdot, hname⟩ := h c rfl
    rw [isNamePart, Bool.or_eq_false_iff] at hname
    simp [Token.clashes, hdot, hname.1]

/-- An exponent mark and a sign without digits are no exponent. -/
theorem StartsBareSign.exponent {mark : Char} {after : List Char} (hmark : mark ∈ ['e', 'E'])
    (h : StartsBareSign after) :
    exponentLength (mark :: after) = 0 ∧ hasBareExponent (mark :: after) = true := by
  obtain ⟨sign, rest, rfl, hsign, hrest⟩ := h
  have hlength : signLength (sign :: rest) = 1 := by
    simp only [List.mem_cons, List.not_mem_nil, or_false] at hsign
    rcases hsign with rfl | rfl <;> rfl
  simp [exponentLength, hasBareExponent, hlength, isExponentMark_iff.2 hmark,
    countDigits_eq_zero hrest]

/-! ### Scanning a literal -/

/-- The token of a number with a fraction and an exponent, either of which may be empty. -/
private def ofParts (fraction exponent text : List Char) : Token :=
  if fraction.length + exponent.length = 0 then .int (String.ofList text)
  else .float (String.ofList text)

section Parts

variable {integer fraction exponent after : List Char} (hinteger : IsInteger integer)
  (hfraction : fraction = [] ∨ IsFraction fraction)
include hinteger hfraction

/-- The parts of a number up to its exponent, in front of a text that doesn't go on with them. -/
private theorem lengths_append (hstop : StopsDigits after) (hdot : after.head? ≠ some '.') :
    HasInteger (integer ++ (fraction ++ after)) ∧
      integerLength (integer ++ (fraction ++ after)) = integer.length ∧
      fractionLength (fraction ++ after) = fraction.length ∧
      bodyLength (integer ++ (fraction ++ after)) = (integer ++ fraction).length := by
  have hlength : fractionLength (fraction ++ after) = fraction.length := by
    rcases hfraction with rfl | hfraction
    · exact fractionLength_of_head?_ne hdot
    · exact fractionLength_of_isFraction hfraction hstop
  have hbehind : StopsDigits (fraction ++ after) := by
    rcases hfraction with rfl | ⟨digits, rfl, -⟩
    · exact hstop
    · intro c hc
      obtain rfl := Option.some.inj hc
      rfl
  obtain ⟨hhas, hint⟩ := hinteger.hasInteger hbehind
  refine ⟨hhas, hint, hlength, ?_⟩
  rw [bodyLength, hint, List.drop_left, hlength, List.length_append]

/-- A literal is scanned as a number in front of a text that may follow it. -/
private theorem scanNumber_parts (hexponent : exponent = [] ∨ IsExponent exponent)
    (hafter : MayFollow after) :
    scanNumber (integer ++ (fraction ++ (exponent ++ after))) =
      (ofParts fraction exponent (integer ++ fraction ++ exponent),
        (integer ++ fraction ++ exponent).length) := by
  have hbehind : StopsDigits (exponent ++ after) ∧ (exponent ++ after).head? ≠ some '.' := by
    rcases hexponent with rfl | ⟨mark, sign, digits, rfl, hmark, -⟩
    · exact ⟨hafter.stopsDigits, hafter.head?_ne⟩
    · simp only [List.mem_cons, List.not_mem_nil, or_false] at hmark
      rcases hmark with rfl | rfl <;> simp [StopsDigits, isDecimal]
  have hlength : exponentLength (exponent ++ after) = exponent.length ∧
      ((exponentLength (exponent ++ after) = 0 && hasBareExponent (exponent ++ after)) = false) := by
    rcases hexponent with rfl | hexponent
    · simp [hafter.exponent]
    · have hlength := exponentLength_of_isExponent hexponent hafter.stopsDigits
      have hpos := List.length_pos_iff.2 hexponent.ne_nil
      exact ⟨hlength, by simp [hlength, hexponent.ne_nil]⟩
  obtain ⟨⟨hdigits, hzero⟩, hint, hfrac, hbody⟩ :=
    lengths_append hinteger hfraction hbehind.1 hbehind.2
  have hdropBody : (integer ++ (fraction ++ (exponent ++ after))).drop (integer ++ fraction).length =
      exponent ++ after := by
    rw [← List.append_assoc, List.drop_left]
  have hall : integer ++ (fraction ++ (exponent ++ after)) =
      (integer ++ fraction ++ exponent) ++ after := by simp
  have hsize : (integer ++ fraction).length + exponent.length =
      (integer ++ fraction ++ exponent).length := List.length_append.symm
  rw [scanNumber_eq, if_neg hdigits, hzero, if_neg Bool.false_ne_true]
  dsimp only
  rw [hbody, hdropBody, hint, List.drop_left, hfrac, hlength.2, if_neg Bool.false_ne_true, hlength.1,
    hsize, hall, List.drop_left, hafter.clashes, if_neg Bool.false_ne_true, List.take_left]
  rfl

/-- A literal without exponent is scanned together with an exponent mark in front of a sign without
digits. -/
private theorem scanNumber_parts_mark {mark : Char} (hmark : mark ∈ ['e', 'E'])
    (hafter : StartsBareSign after) :
    scanNumber (integer ++ (fraction ++ mark :: after)) =
      (ofParts fraction [] (integer ++ fraction ++ [mark]),
        (integer ++ fraction ++ [mark]).length) := by
  have hbehind : StopsDigits (mark :: after) ∧ (mark :: after).head? ≠ some '.' := by
    simp only [List.mem_cons, List.not_mem_nil, or_false] at hmark
    rcases hmark with rfl | rfl <;> simp [StopsDigits, isDecimal]
  obtain ⟨hexponent, hbare⟩ := hafter.exponent hmark
  obtain ⟨⟨hdigits, hzero⟩, hint, hfrac, hbody⟩ :=
    lengths_append hinteger hfraction hbehind.1 hbehind.2
  have hdropBody : (integer ++ (fraction ++ mark :: after)).drop (integer ++ fraction).length =
      mark :: after := by
    rw [← List.append_assoc, List.drop_left]
  have hall : integer ++ (fraction ++ mark :: after) =
      (integer ++ fraction ++ [mark]) ++ after := by simp
  have hsize : (integer ++ fraction).length + 1 = (integer ++ fraction ++ [mark]).length := by
    simp only [List.length_append, List.length_singleton]
  rw [scanNumber_eq, if_neg hdigits, hzero, if_neg Bool.false_ne_true]
  dsimp only
  rw [hbody, hdropBody, hint, List.drop_left, hfrac, hexponent, hbare, Nat.add_zero, if_pos (by simp),
    Nat.add_zero, hsize, hall, List.take_left]
  rfl

end Parts

theorem scanNumber_of_startsNumeral_int {number text : List Char}
    (h : StartsNumeral IsInteger IsInteger number text) :
    scanNumber text = (.int (String.ofList number), number.length) := by
  obtain ⟨after, rfl, ⟨hinteger, hafter⟩ | ⟨⟨literal, mark, rfl, hinteger, hmark⟩, hafter⟩⟩ := h
  · simpa [ofParts] using scanNumber_parts hinteger (.inl rfl) (.inl rfl) hafter
  · simpa [ofParts] using scanNumber_parts_mark hinteger (.inl rfl) hmark hafter

theorem scanNumber_of_startsNumeral_float {number text : List Char}
    (h : StartsNumeral IsFloat IsPointed number text) :
    scanNumber text = (.float (String.ofList number), number.length) := by
  obtain ⟨after, rfl, ⟨⟨integer, fraction, exponent, rfl, hinteger, hfraction, hexponent, hne⟩, hafter⟩ |
    ⟨⟨literal, mark, rfl, ⟨integer, fraction, rfl, hinteger, hfraction⟩, hmark⟩, hafter⟩⟩ := h
  · have hscan := scanNumber_parts hinteger hfraction hexponent hafter
    have hlength : ¬(fraction = [] ∧ exponent = []) := fun h => hne.elim (· h.1) (· h.2)
    rw [ofParts, if_neg (by simpa using hlength)] at hscan
    simpa using hscan
  · have hscan := scanNumber_parts_mark hinteger (.inr hfraction) hmark hafter
    rw [ofParts, if_neg (by simpa using hfraction.ne_nil)] at hscan
    simpa using hscan

/-! ### What is scanned -/

/-- Behind a literal that doesn't clash with what is behind it, a text starts that may follow it. -/
private theorem mayFollow_of_scanNumber {text : List Char}
    (hdigits : countDigits (text.drop (minusLength text)) ≠ 0)
    (hclash : ¬Token.clashes
      (text.drop (bodyLength text + exponentLength (text.drop (bodyLength text)))) = true) :
    MayFollow (text.drop (bodyLength text + exponentLength (text.drop (bodyLength text)))) := by
  obtain ⟨k, hk, -⟩ := exists_digits_size hdigits
  have hstop := stopsDigits_drop_countDigits (text.drop k)
  rw [List.drop_drop, ← hk] at hstop
  intro c hc
  obtain ⟨rest, hrest⟩ := List.head?_eq_some_iff.1 hc
  simp only [hrest, Token.clashes, Bool.or_eq_true, not_or, beq_iff_eq, Bool.not_eq_true] at hclash
  exact ⟨hclash.1, by rw [isNamePart, hclash.2, hstop c hc]; rfl⟩

/-- A bare exponent is a mark in front of a sign without digits. -/
private theorem startsBareSign_of_hasBareExponent {text : List Char} {n : Nat}
    (hexponent : exponentLength (text.drop n) = 0) (hbare : hasBareExponent (text.drop n) = true) :
    StartsBareSign (text.drop (n + 1)) := by
  obtain ⟨mark, sign, rest, hdrop, -, hsign, hrest⟩ :=
    eq_cons_cons_of_hasBareExponent hexponent hbare
  have hstop := stopsDigits_drop_countDigits rest
  rw [hrest, List.drop_zero] at hstop
  refine ⟨sign, rest, ?_, by simpa [startsSigned] using hsign, hstop⟩
  rw [← List.drop_drop, hdrop]
  rfl

/-- A scanned number is an integer or a float of the grammar, unless it is invalid. -/
theorem startsNumeral_of_scanNumber (text : List Char) :
    (scanNumber text).1 = .invalid ∨
      (∃ number, (scanNumber text).1 = .int (String.ofList number) ∧
        StartsNumeral IsInteger IsInteger number text) ∨
      ∃ number, (scanNumber text).1 = .float (String.ofList number) ∧
        StartsNumeral IsFloat IsPointed number text := by
  have hsplit (n : Nat) : text = text.take n ++ text.drop n := (List.take_append_drop n text).symm
  rw [scanNumber_eq]
  split
  · exact .inl rfl
  next hdigits =>
  split
  · exact .inl rfl
  next hzero =>
  have hinteger : HasInteger text := ⟨hdigits, by simpa using hzero⟩
  dsimp only
  split
  · next hbare =>
    -- The mark of a bare exponent goes with the literal in front of it.
    simp only [Bool.and_eq_true, decide_eq_true_eq] at hbare
    have hsign := startsBareSign_of_hasBareExponent hbare.1 hbare.2
    rw [hbare.1, Nat.add_zero, Nat.add_zero]
    split
    · next hfraction =>
      have hends := endsBare_take (isInteger_take_body hinteger hfraction) hbare.2
      exact .inr (.inl ⟨_, rfl, _, hsplit _, .inr ⟨hends, hsign⟩⟩)
    · next hfraction =>
      have hpointed : IsPointed (text.take (bodyLength text)) :=
        ⟨_, _, List.take_add, isInteger_take hinteger, isFraction_take hfraction⟩
      exact .inr (.inr ⟨_, rfl, _, hsplit _, .inr ⟨endsBare_take hpointed hbare.2, hsign⟩⟩)
  split
  · exact .inl rfl
  next hclash =>
  have hfollow := mayFollow_of_scanNumber hdigits hclash
  split
  · next hnone =>
    obtain ⟨hfraction, hexponent⟩ := Nat.add_eq_zero_iff.1 hnone
    rw [hexponent, Nat.add_zero] at hfollow ⊢
    exact .inr (.inl ⟨_, rfl, _, hsplit _, .inl ⟨isInteger_take_body hinteger hfraction, hfollow⟩⟩)
  · next hsome =>
    exact .inr (.inr ⟨_, rfl, _, hsplit _, .inl ⟨isFloat_take_size hinteger hsome, hfollow⟩⟩)

/-- An integer is scanned where the grammar has one, and nowhere else. -/
theorem scanNumber_eq_int_iff {text : List Char} {number : String} :
    (scanNumber text).1 = .int number ↔ StartsNumeral IsInteger IsInteger number.toList text := by
  refine ⟨fun h => ?_, fun h => ?_⟩
  · rcases startsNumeral_of_scanNumber text with hscan | ⟨read, hscan, hread⟩ | ⟨read, hscan, -⟩
    · cases hscan.symm.trans h
    · obtain rfl := Token.int.inj (hscan.symm.trans h)
      rwa [String.toList_ofList]
    · cases hscan.symm.trans h
  · rw [scanNumber_of_startsNumeral_int h, String.ofList_toList]

/-- A float is scanned where the grammar has one, and nowhere else. -/
theorem scanNumber_eq_float_iff {text : List Char} {number : String} :
    (scanNumber text).1 = .float number ↔ StartsNumeral IsFloat IsPointed number.toList text := by
  refine ⟨fun h => ?_, fun h => ?_⟩
  · rcases startsNumeral_of_scanNumber text with hscan | ⟨read, hscan, -⟩ | ⟨read, hscan, hread⟩
    · cases hscan.symm.trans h
    · cases hscan.symm.trans h
    · obtain rfl := Token.float.inj (hscan.symm.trans h)
      rwa [String.toList_ofList]
  · rw [scanNumber_of_startsNumeral_float h, String.ofList_toList]

end Token

/-! ### Where tokens are scanned -/

/-- The first part of a text is as long as its bytes say. -/
theorem Text.append_inj_of_utf8Length {a b c d : List Char} (h : a ++ b = c ++ d)
    (hlength : utf8Length a = utf8Length c) : a = c ∧ b = d := by
  have hsplit := splitBytes_append a b
  rw [h, hlength, splitBytes_append c d] at hsplit
  exact (Prod.mk.inj hsplit.symm)

namespace Scrap

/-- The first scrap is scanned where its text starts. -/
theorem token_of_next? {cs after : List Char} {scrap : Scrap} (h : next? cs = some (scrap, after)) :
    ∃ c rest, scrap.text ++ after = c :: rest ∧ scrap.token = (Token.scan c rest).1 := by
  cases hdrop : cs.dropWhile Token.isIgnored with
  | nil =>
    rw [next?, hdrop] at h
    cases h
  | cons c rest =>
    obtain ⟨rfl, rfl⟩ := Prod.mk.inj (Option.some.inj (h.symm.trans (next?_of_dropWhile hdrop)))
    exact ⟨c, rest, List.take_append_drop _ _, rfl⟩

private theorem exists_of_mem_locateFrom (cs before : List Char) :
    ∀ located ∈ locateFrom (Text.utf8Length before) (scanAll cs), ∃ gap c rest,
      cs = gap ++ c :: rest ∧ located.1.token = (Token.scan c rest).1 ∧
        located.2.start = Text.utf8Length (before ++ gap) := by
  induction cs using scanAll_induction generalizing before with
  | none cs h => rw [scanAll_of_none h]; exact List.forall_mem_nil _
  | some cs scrap after h ih =>
    obtain ⟨rfl, -, -⟩ := eq_of_next? h
    obtain ⟨c, rest, hrest, htoken⟩ := token_of_next? h
    rw [scanAll_of_some h, locateFrom, span, ← Text.utf8Length_append, ← Text.utf8Length_append]
    refine List.forall_mem_cons.2 ⟨⟨scrap.gap, c, rest, by rw [hrest], htoken, rfl⟩, ?_⟩
    intro located hlocated
    obtain ⟨gap, d, rest', rfl, htoken, hstart⟩ := ih _ located hlocated
    exact ⟨scrap.gap ++ (scrap.text ++ gap), d, rest', by simp, htoken, by simpa using hstart⟩

/-- Every token of a text is scanned where it starts. -/
theorem exists_of_mem_places {cs : List Char} {place : Token × Span} (h : place ∈ places cs) :
    ∃ before c rest, cs = before ++ c :: rest ∧ place.1 = (Token.scan c rest).1 ∧
      place.2.start = Text.utf8Length before := by
  obtain ⟨located, hlocated, rfl⟩ := List.mem_map.1 h
  exact exists_of_mem_locateFrom cs [] located hlocated

/-- What is read where a token starts is what is scanned there. -/
theorem token_of_mem_places {before rest : List Char} {c : Char} {place : Token × Span}
    (h : place ∈ places (before ++ c :: rest)) (hstart : place.2.start = Text.utf8Length before) :
    place.1 = (Token.scan c rest).1 := by
  obtain ⟨before', c', rest', hcs, htoken, hstart'⟩ := exists_of_mem_places h
  obtain ⟨-, hrest⟩ := Text.append_inj_of_utf8Length hcs (hstart.symm.trans hstart')
  obtain ⟨rfl, rfl⟩ := List.cons.inj hrest
  exact htoken

end Scrap

open Token

/-- Where a token of a text starts with a minus or a digit, an integer is read if and only if the grammar
has that integer there and no digit, letter, underscore or dot behind it, a float is read if and only if
the grammar has that float there in the same way, and everything else is invalid. The one other way to end
a number is in the mark of an exponent that has a sign and no digits. -/
theorem mem_places_number {before rest : List Char} {c : Char} (hc : c = '-' ∨ isDecimal c = true)
    {place : Token × Span} (hplace : place ∈ Scrap.places (before ++ c :: rest))
    (hstart : place.2.start = Text.utf8Length before) :
    (∀ number, place.1 = .int number ↔ ∃ after, c :: rest = number.toList ++ after ∧
      (IsInteger number.toList ∧ MayFollow after ∨
        EndsBare IsInteger number.toList ∧ StartsBareSign after)) ∧
    (∀ number, place.1 = .float number ↔ ∃ after, c :: rest = number.toList ++ after ∧
      (IsFloat number.toList ∧ MayFollow after ∨
        EndsBare IsPointed number.toList ∧ StartsBareSign after)) ∧
    ((∀ number, place.1 ≠ .int number ∧ place.1 ≠ .float number) → place.1 = .invalid) := by
  have hnumber : startsNumber c = true := by simpa [startsNumber] using hc
  rw [Scrap.token_of_mem_places hplace hstart, scan_number hnumber]
  refine ⟨fun number => scanNumber_eq_int_iff, fun number => scanNumber_eq_float_iff, fun h => ?_⟩
  rcases startsNumeral_of_scanNumber (c :: rest) with hscan | ⟨number, hscan, -⟩ | ⟨number, hscan, -⟩
  · exact hscan
  · exact absurd hscan (h _).1
  · exact absurd hscan (h _).2

/-- A float in front of a bracket, behind a character of two bytes. -/
theorem mem_places_number_float :
    ('-' = '-' ∨ isDecimal '-' = true) ∧
      (.float "-1.5e3", ⟨3, 9⟩) ∈ Scrap.places ("é[".toList ++ '-' :: "1.5e3]".toList) ∧
      3 = Text.utf8Length "é[".toList ∧
      ∃ after, '-' :: "1.5e3]".toList = "-1.5e3".toList ++ after ∧
        (IsFloat "-1.5e3".toList ∧ MayFollow after ∨
          EndsBare IsPointed "-1.5e3".toList ∧ StartsBareSign after) := by
  have hplace : (.float "-1.5e3", ⟨3, 9⟩) ∈ Scrap.places ("é[".toList ++ '-' :: "1.5e3]".toList) := by
    decide
  have hstart : 3 = Text.utf8Length "é[".toList := by decide
  obtain ⟨-, hfloat, -⟩ := mem_places_number (.inl rfl) hplace hstart
  exact ⟨.inl rfl, hplace, hstart, (hfloat "-1.5e3").1 rfl⟩

/-- An integer in front of the mark of an exponent with a sign and no digits is read together with the
mark, though it is no integer then. -/
theorem places_exponentMark : Scrap.places "1e+".toList = [(.int "1e", ⟨0, 2⟩), (.invalid, ⟨2, 3⟩)] ∧
    ¬IsInteger "1e".toList := by
  refine ⟨by decide, fun h => ?_⟩
  cases h.getLast? 'e' rfl

end GraphQLTree
