import GraphQLTree.Proofs.Text.Quoted
import Mathlib.Algebra.Group.Nat.Defs

/-!
# The grammar of quoted strings

What a **unit** of a quoted string is and which character it stands for is said here without the reader,
and so is what a whole string is: units and a closing quote (`IsQuoted`). The reader takes a unit from
the start of a text if and only if there is one (`unit?_eq_some_iff`), and so reads a string if and only
if the text starts with one (`readQuoted_eq_some_iff`).
-/

namespace GraphQLTree.Text

/-- The characters that may stand behind a backslash, `u` apart, and those they stand for. -/
def simpleEscapes : List (Char × Char) :=
  [('"', '"'), ('\\', '\\'), ('/', '/'), ('b', '\x08'), ('f', '\x0c'), ('n', '\n'), ('r', '\r'),
    ('t', '\t')]

/-- Whether a text is made of hexadecimal digits and they denote a number. -/
structure Denotes (digits : List Char) (n : Nat) : Prop where
  ne_nil : digits ≠ []
  all_digits : ∀ d ∈ digits, isHexDigit d = true
  number : hexNumber digits = n

/-- Whether a text is a unit that stands for a character. No character's number is a surrogate, so
neither is that of an escape which isn't one of a pair. -/
inductive IsUnit : List Char → Char → Prop where
  | plain {c : Char} (hquote : c ≠ '"') (hslash : c ≠ '\\') (hline : c ≠ '\n') (hreturn : c ≠ '\r') :
    IsUnit [c] c
  | simple {e c : Char} (h : (e, c) ∈ simpleEscapes) : IsUnit ['\\', e] c
  | fixed {digits : List Char} {c : Char} (hlength : digits.length = 4)
    (h : Denotes digits c.toNat) : IsUnit ('\\' :: 'u' :: digits) c
  | pair {digits digits' : List Char} {high low : Nat} {c : Char} (hlength : digits.length = 4)
    (hlength' : digits'.length = 4) (hdigits : Denotes digits high) (hdigits' : Denotes digits' low)
    (hhigh : 0xD800 ≤ high ∧ high ≤ 0xDBFF) (hlow : 0xDC00 ≤ low ∧ low ≤ 0xDFFF)
    (h : c.toNat = 0x10000 + (high - 0xD800) * 0x400 + (low - 0xDC00)) :
    IsUnit ('\\' :: 'u' :: (digits ++ '\\' :: 'u' :: digits')) c
  | braced {digits : List Char} {c : Char} (h : Denotes digits c.toNat) :
    IsUnit ('\\' :: 'u' :: '\x7b' :: (digits ++ ['\x7d'])) c

/-- Whether a text is the rest of a quoted string behind its opening quote, with a value. -/
inductive IsQuoted : List Char → List Char → Prop where
  | finish : IsQuoted ['"'] []
  | unit {text body value : List Char} {c : Char} (h : IsUnit text c) (hbody : IsQuoted body value) :
    IsQuoted (text ++ body) (c :: value)

/-! ### Digits -/

theorem hexDigit?_lt {c : Char} {n : Nat} (h : hexDigit? c = some n) : n < 16 := by
  unfold hexDigit? at h
  simp only [Char.le_def, UInt32.le_iff_toNat_le] at h
  split at h
  · next hc =>
    obtain rfl := Option.some.inj h
    have hle : c.toNat ≤ '9'.toNat := hc.2
    exact Nat.lt_of_le_of_lt (Nat.sub_le_sub_right hle _) (by decide)
  split at h
  · next hc =>
    obtain rfl := Option.some.inj h
    have hle : c.toNat ≤ 'f'.toNat := hc.2
    exact Nat.lt_of_le_of_lt (Nat.add_le_add_right (Nat.sub_le_sub_right hle _) 10) (by decide)
  split at h
  · next hc =>
    obtain rfl := Option.some.inj h
    have hle : c.toNat ≤ 'F'.toNat := hc.2
    exact Nat.lt_of_le_of_lt (Nat.add_le_add_right (Nat.sub_le_sub_right hle _) 10) (by decide)
  · cases h

/-- Digits denote no more than their number allows. -/
theorem hexNumber_lt (digits : List Char) : hexNumber digits < 16 ^ digits.length := by
  suffices h : ∀ n, digits.foldl (fun n c => 16 * n + (hexDigit? c).getD 0) n <
      (n + 1) * 16 ^ digits.length by
    simpa [hexNumber] using h 0
  induction digits with
  | nil => simp
  | cons d digits ih =>
    intro n
    have hd : (hexDigit? d).getD 0 < 16 := by
      cases h : hexDigit? d with
      | none => exact Nat.succ_pos 15
      | some m => exact hexDigit?_lt h
    refine Nat.lt_of_lt_of_le (ih _) ?_
    rw [List.length_cons, Nat.pow_succ, Nat.mul_comm (16 ^ _), ← Nat.mul_assoc]
    exact Nat.mul_le_mul_right _ (by dsimp only; omega)

theorem Denotes.lt {digits : List Char} {n : Nat} (h : Denotes digits n) : n < 16 ^ digits.length :=
  h.number ▸ hexNumber_lt digits

theorem scalar?_eq_some_iff {n : Nat} {c : Char} : scalar? n = some c ↔ c.toNat = n := by
  constructor
  · intro h
    obtain ⟨hvalid, hc⟩ := Option.ite_none_right_eq_some.1 h
    rw [← Option.some.inj hc, Char.ofNat, dif_pos hvalid]
    rfl
  · rintro rfl
    exact scalar?_toNat c

/-- The number of a character is no surrogate. -/
theorem not_surrogate (c : Char) : ¬(0xD800 ≤ c.toNat ∧ c.toNat ≤ 0xDBFF) := by
  have hvalid : c.toNat < 0xD800 ∨ 0xDFFF < c.toNat ∧ c.toNat < 0x110000 := c.valid
  omega

/-- A text denotes a number with its first four characters if and only if they are digits that do. -/
theorem fourDigits?_eq_some_iff {cs : List Char} {n : Nat} :
    fourDigits? cs = some n ↔
      ∃ digits rest, cs = digits ++ rest ∧ digits.length = 4 ∧ Denotes digits n := by
  constructor
  · intro h
    unfold fourDigits? at h
    split at h
    · next a b c d rest =>
      obtain ⟨hdigits, hn⟩ := Option.ite_none_right_eq_some.1 h
      exact ⟨[a, b, c, d], rest, rfl, rfl, List.cons_ne_nil _ _, List.all_eq_true.1 hdigits,
        Option.some.inj hn⟩
    · cases h
  · rintro ⟨digits, rest, rfl, hlength, hdigits⟩
    match digits, hlength with
    | [a, b, c, d], _ =>
      have hall : [a, b, c, d].all isHexDigit = true := List.all_eq_true.2 hdigits.all_digits
      have hcs : [a, b, c, d] ++ rest = a :: b :: c :: d :: rest := rfl
      rw [hcs, fourDigits?, if_pos hall, hdigits.number]

/-- A text starts with the second half of a surrogate pair if and only if it starts with its escape. -/
theorem lowSurrogate?_eq_some_iff {cs : List Char} {n : Nat} :
    lowSurrogate? cs = some n ↔ ∃ digits rest, cs = '\\' :: 'u' :: (digits ++ rest) ∧
      digits.length = 4 ∧ Denotes digits n ∧ 0xDC00 ≤ n ∧ n ≤ 0xDFFF := by
  constructor
  · intro h
    unfold lowSurrogate? at h
    split at h
    · obtain ⟨hfour, hrange⟩ := Option.filter_eq_some_iff.1 h
      obtain ⟨digits, rest, rfl, hlength, hdigits⟩ := fourDigits?_eq_some_iff.1 hfour
      simp only [Bool.and_eq_true, decide_eq_true_eq] at hrange
      exact ⟨digits, rest, rfl, hlength, hdigits, hrange⟩
    · cases h
  · rintro ⟨digits, rest, rfl, hlength, hdigits, hrange⟩
    rw [lowSurrogate?, fourDigits?_eq_some_iff.2 ⟨digits, rest, rfl, hlength, hdigits⟩]
    exact Option.filter_eq_some_iff.2 ⟨rfl, by simpa using hrange⟩

/-! ### Units -/

theorem simpleEscape?_eq_some_iff {e c : Char} :
    simpleEscape? e = some c ↔ (e, c) ∈ simpleEscapes := by
  constructor
  · intro h
    unfold simpleEscape? at h
    split at h
    case h_9 => cases h
    all_goals
      obtain rfl := Option.some.inj h
      decide
  · intro h
    simp only [simpleEscapes, List.mem_cons, Prod.mk.injEq, List.not_mem_nil, or_false] at h
    rcases h with ⟨rfl, rfl⟩ | ⟨rfl, rfl⟩ | ⟨rfl, rfl⟩ | ⟨rfl, rfl⟩ | ⟨rfl, rfl⟩ | ⟨rfl, rfl⟩ |
      ⟨rfl, rfl⟩ | ⟨rfl, rfl⟩ <;> rfl

theorem isPlain_iff {c : Char} :
    isPlain c = true ↔ c ≠ '"' ∧ c ≠ '\\' ∧ c ≠ '\n' ∧ c ≠ '\r' := by
  simp [isPlain, and_assoc]

theorem isPlain_eq_false_iff {c : Char} :
    isPlain c = false ↔ c = '"' ∨ c = '\\' ∨ c = '\n' ∨ c = '\r' := by
  simp only [isPlain, Bool.and_eq_false_iff, bne_eq_false_iff_eq, or_assoc]

theorem IsUnit.head? {text : List Char} {c : Char} (h : IsUnit text c) :
    text ≠ [] ∧ text.head? ≠ some '"' := by
  cases h with
  | plain hquote => simpa using hquote
  | _ => simp

theorem unit?_simple {e : Char} (he : e ≠ 'u') (rest : List Char) :
    unit? ('\\' :: e :: rest) = (simpleEscape? e).map (·, 2) :=
  unit?.eq_3 e rest (fun _ h => absurd h he) he

theorem unit?_fixed {cs : List Char} (hbrace : cs.head? ≠ some '\x7b') :
    unit? ('\\' :: 'u' :: cs) = fixedEscape? cs :=
  unit?.eq_2 cs fun _ h => hbrace (by rw [h]; rfl)

theorem Denotes.head? {digits : List Char} {n : Nat} (h : Denotes digits n) (rest : List Char) :
    (digits ++ rest).head? ≠ some '\x7b' := by
  obtain ⟨d, digits, rfl⟩ := List.exists_cons_of_ne_nil h.ne_nil
  have hd := h.all_digits d List.mem_cons_self
  intro he
  obtain rfl := Option.some.inj he
  exact absurd hd (by decide)

theorem Denotes.takeWhile_append {digits : List Char} {n : Nat} (h : Denotes digits n) {c : Char}
    (hc : isHexDigit c = false) (rest : List Char) :
    (digits ++ c :: rest).takeWhile isHexDigit = digits :=
  takeWhile_append_of_stops h.all_digits (by simpa using hc)

theorem fixedEscape?_append {digits : List Char} {n : Nat} (hlength : digits.length = 4)
    (h : Denotes digits n) (rest : List Char) :
    fixedEscape? (digits ++ rest) =
      if 0xD800 ≤ n ∧ n ≤ 0xDBFF then
        (lowSurrogate? rest).bind fun low => (scalar? (combineSurrogates n low)).map (·, 12)
      else (scalar? n).map (·, 6) := by
  have hfour := fourDigits?_eq_some_iff.2 ⟨digits, rest, rfl, hlength, h⟩
  have hdrop : (digits ++ rest).drop 4 = rest := hlength ▸ List.drop_left
  simp only [fixedEscape?, hfour, Option.bind_eq_bind, Option.bind_some, hdrop]

theorem bracedEscape?_append {digits : List Char} {n : Nat} (h : Denotes digits n)
    (rest : List Char) :
    bracedEscape? (digits ++ '\x7d' :: rest) = (scalar? n).map (·, digits.length + 4) := by
  rw [bracedEscape?, h.takeWhile_append (by decide)]
  simp [h.ne_nil, h.number]

/-- A unit is taken from the start of every text that begins with it. -/
theorem IsUnit.unit?_append {text : List Char} {c : Char} (h : IsUnit text c) (rest : List Char) :
    unit? (text ++ rest) = some (c, text.length) := by
  cases h with
  | plain hquote hslash hline hreturn =>
    rw [List.singleton_append, unit?_cons_of_ne hslash,
      if_pos (isPlain_iff.2 ⟨hquote, hslash, hline, hreturn⟩)]
    rfl
  | @simple e c h =>
    have hmeaning := simpleEscape?_eq_some_iff.2 h
    have he : e ≠ 'u' := by
      rintro rfl
      cases hmeaning
    rw [List.cons_append, List.singleton_append, unit?_simple he, hmeaning]
    rfl
  | @fixed digits c hlength h =>
    rw [List.cons_append, List.cons_append, unit?_fixed (h.head? rest), fixedEscape?_append hlength h,
      if_neg (not_surrogate c), scalar?_toNat]
    simp [hlength]
  | @pair digits digits' high low c hlength hlength' hdigits hdigits' hhigh hlow h =>
    have hsecond : lowSurrogate? ('\\' :: 'u' :: (digits' ++ rest)) = some low :=
      lowSurrogate?_eq_some_iff.2 ⟨digits', rest, rfl, hlength', hdigits', hlow⟩
    have hscalar : scalar? (combineSurrogates high low) = some c := scalar?_eq_some_iff.2 h
    have hcs : '\\' :: 'u' :: (digits ++ '\\' :: 'u' :: digits') ++ rest =
        '\\' :: 'u' :: (digits ++ '\\' :: 'u' :: (digits' ++ rest)) := by simp
    rw [hcs, unit?_fixed (hdigits.head? _), fixedEscape?_append hlength hdigits, if_pos hhigh, hsecond,
      Option.bind_some, hscalar]
    simp [hlength, hlength']
  | @braced digits c h =>
    have hcs : '\\' :: 'u' :: '\x7b' :: (digits ++ ['\x7d']) ++ rest =
        '\\' :: 'u' :: '\x7b' :: (digits ++ '\x7d' :: rest) := by simp
    rw [hcs, unit?.eq_1, bracedEscape?_append h, scalar?_toNat]
    simp

private theorem isUnit_of_fixedEscape? {cs : List Char} {c : Char} {size : Nat}
    (h : fixedEscape? cs = some (c, size)) :
    ∃ text rest, '\\' :: 'u' :: cs = text ++ rest ∧ text.length = size ∧ IsUnit text c := by
  obtain ⟨n, hfour, -⟩ := Option.bind_eq_some_iff.1 h
  obtain ⟨digits, rest, rfl, hlength, hdigits⟩ := fourDigits?_eq_some_iff.1 hfour
  rw [fixedEscape?_append hlength hdigits] at h
  split at h
  · next hhigh =>
    obtain ⟨low, hsecond, hcombined⟩ := Option.bind_eq_some_iff.1 h
    obtain ⟨digits', rest, rfl, hlength', hdigits', hlow⟩ := lowSurrogate?_eq_some_iff.1 hsecond
    obtain ⟨_, hscalar, he⟩ := Option.map_eq_some_iff.1 hcombined
    obtain ⟨rfl, rfl⟩ := Prod.mk.inj he
    exact ⟨_, rest, by simp, by simp [hlength, hlength'],
      .pair hlength hlength' hdigits hdigits' hhigh hlow (scalar?_eq_some_iff.1 hscalar)⟩
  · obtain ⟨_, hscalar, he⟩ := Option.map_eq_some_iff.1 h
    obtain ⟨rfl, rfl⟩ := Prod.mk.inj he
    obtain rfl := scalar?_eq_some_iff.1 hscalar
    exact ⟨_, rest, rfl, by simp [hlength], .fixed hlength hdigits⟩

/-- What stands before a closing brace, if it is digits, denotes a number. -/
theorem exists_denotes_of_brace {cs : List Char}
    (h : ((cs.takeWhile isHexDigit).isEmpty ||
      (cs.drop (cs.takeWhile isHexDigit).length).head? != some '\x7d') = false) :
    ∃ digits n rest, cs = digits ++ '\x7d' :: rest ∧ Denotes digits n := by
  have hall : ∀ d ∈ cs.takeWhile isHexDigit, isHexDigit d = true :=
    List.all_eq_true.1 List.all_takeWhile
  have hcs := List.takeWhile_append_dropWhile (p := isHexDigit) (l := cs)
  generalize cs.takeWhile isHexDigit = digits at *
  obtain ⟨hne, hclose⟩ := Bool.or_eq_false_iff.1 h
  rw [← hcs, List.drop_left, bne_eq_false_iff_eq] at hclose
  obtain ⟨rest, hrest⟩ := List.head?_eq_some_iff.1 hclose
  exact ⟨digits, _, rest, by rw [← hcs, hrest], List.isEmpty_eq_false_iff.1 hne, hall, rfl⟩

private theorem isUnit_of_bracedEscape? {cs : List Char} {c : Char} {size : Nat}
    (h : bracedEscape? cs = some (c, size)) :
    ∃ text rest, '\\' :: 'u' :: '\x7b' :: cs = text ++ rest ∧ text.length = size ∧ IsUnit text c := by
  obtain ⟨digits, n, rest, rfl, hdigits⟩ :=
    exists_denotes_of_brace (Bool.eq_false_iff.2 (Option.ite_none_left_eq_some.1 h).1)
  rw [bracedEscape?_append hdigits] at h
  obtain ⟨_, hscalar, he⟩ := Option.map_eq_some_iff.1 h
  obtain ⟨rfl, rfl⟩ := Prod.mk.inj he
  obtain rfl := scalar?_eq_some_iff.1 hscalar
  exact ⟨_, rest, by simp, by simp, .braced hdigits⟩

/-- Every unit that is taken is one. -/
theorem isUnit_of_unit? {cs : List Char} {c : Char} {size : Nat} (h : unit? cs = some (c, size)) :
    ∃ text rest, cs = text ++ rest ∧ text.length = size ∧ IsUnit text c := by
  unfold unit? at h
  split at h
  · exact isUnit_of_bracedEscape? h
  · exact isUnit_of_fixedEscape? h
  · next e rest _ _ =>
    obtain ⟨_, hmeaning, he⟩ := Option.map_eq_some_iff.1 h
    obtain ⟨rfl, rfl⟩ := Prod.mk.inj he
    exact ⟨['\\', e], rest, rfl, rfl, .simple (simpleEscape?_eq_some_iff.1 hmeaning)⟩
  · next d rest _ _ _ =>
    obtain ⟨hplain, he⟩ := Option.ite_none_right_eq_some.1 h
    obtain ⟨rfl, rfl⟩ := Prod.mk.inj (Option.some.inj he)
    obtain ⟨hquote, hslash, hline, hreturn⟩ := isPlain_iff.1 hplain
    exact ⟨[d], rest, rfl, rfl, .plain hquote hslash hline hreturn⟩
  · cases h

/-- A text starts with a unit if and only if one is taken from it. -/
theorem unit?_eq_some_iff {cs : List Char} {c : Char} {size : Nat} :
    unit? cs = some (c, size) ↔
      ∃ text rest, cs = text ++ rest ∧ text.length = size ∧ IsUnit text c := by
  refine ⟨isUnit_of_unit?, ?_⟩
  rintro ⟨text, rest, rfl, rfl, h⟩
  exact h.unit?_append rest

/-! ### Whole strings -/

private theorem length_drop_lt_of_unit? {cs : List Char} {c : Char} {size : Nat}
    (h : unit? cs = some (c, size)) : (cs.drop size).length < cs.length := by
  obtain ⟨text, rest, rfl, rfl, hunit⟩ := isUnit_of_unit? h
  have := List.length_pos_iff.2 hunit.head?.1
  rw [List.drop_left, List.length_append]
  omega

private theorem readUnits_of_ne {cs : List Char} (h : cs.head? ≠ some '"') (n : Nat) :
    readUnits (n + 1) cs = (unit? cs).bind fun (c, size) =>
      (readUnits n (cs.drop size)).map fun (value, rest) => (c :: value, size + rest) := by
  rw [readUnits.eq_3 _ _ fun _ he => h (by rw [he]; rfl)]
  refine Option.bind_congr fun unit _ => ?_
  cases hunits : readUnits n (cs.drop unit.2) <;> simp only [hunits] <;> rfl

/-- Units are read the same way with every number of them that the text leaves room for. -/
private theorem readUnits_eq_of_le {n m : Nat} {cs : List Char} (hn : cs.length ≤ n)
    (hm : cs.length ≤ m) : readUnits n cs = readUnits m cs := by
  induction n generalizing m cs with
  | zero =>
    obtain rfl : cs = [] := List.eq_nil_of_length_eq_zero (by omega)
    cases m with
    | zero => rfl
    | succ m => rw [readUnits_of_ne (by simp)]; rfl
  | succ n ih =>
    by_cases h : cs.head? = some '"'
    · obtain ⟨rest, rfl⟩ := List.head?_eq_some_iff.1 h
      rw [readUnits.eq_1, readUnits.eq_1]
    cases m with
    | zero =>
      obtain rfl : cs = [] := List.eq_nil_of_length_eq_zero (by omega)
      rw [readUnits_of_ne h]
      rfl
    | succ m =>
      rw [readUnits_of_ne h, readUnits_of_ne h]
      refine Option.bind_congr fun unit hunit => ?_
      obtain ⟨c, size⟩ := unit
      have := length_drop_lt_of_unit? hunit
      dsimp only
      rw [@ih m _ (by omega) (by omega)]

/-- Reading ends at a quote. -/
theorem readQuoted_quote (cs : List Char) : readQuoted ('"' :: cs) = some ([], 1) := by
  rw [readQuoted, readUnits.eq_1]

/-- Reading goes on behind each unit, and ends where there is none. -/
theorem readQuoted_of_ne {cs : List Char} (h : cs.head? ≠ some '"') :
    readQuoted cs = (unit? cs).bind fun (c, size) =>
      (readQuoted (cs.drop size)).map fun (value, rest) => (c :: value, size + rest) := by
  rw [readQuoted, readUnits_eq_of_le (Nat.le_refl _) (Nat.le_succ _), readUnits_of_ne h]
  refine Option.bind_congr fun unit hunit => ?_
  obtain ⟨c, size⟩ := unit
  have := length_drop_lt_of_unit? hunit
  dsimp only
  rw [readQuoted, readUnits_eq_of_le (Nat.le_of_lt this) (Nat.le_refl _)]

theorem IsUnit.readQuoted_append {text : List Char} {c : Char} (h : IsUnit text c)
    (rest : List Char) : readQuoted (text ++ rest) =
      (readQuoted rest).map fun (value, size) => (c :: value, text.length + size) := by
  obtain ⟨hne, hquote⟩ := h.head?
  have hhead : (text ++ rest).head? ≠ some '"' := by
    obtain ⟨d, text, rfl⟩ := List.exists_cons_of_ne_nil hne
    exact hquote
  rw [readQuoted_of_ne hhead, h.unit?_append, Option.bind_some]
  dsimp only
  rw [List.drop_left]

/-- Characters that stand for themselves are in the value as they are. -/
theorem readQuoted_plain_append {run : List Char} (h : ∀ c ∈ run, isPlain c = true)
    (rest : List Char) : readQuoted (run ++ rest) =
      (readQuoted rest).map fun (value, size) => (run ++ value, run.length + size) := by
  induction run with
  | nil => simp
  | cons c run ih =>
    obtain ⟨hc, hrun⟩ := List.forall_mem_cons.1 h
    obtain ⟨hquote, hslash, hline, hreturn⟩ := isPlain_iff.1 hc
    have hunit : IsUnit [c] c := .plain hquote hslash hline hreturn
    rw [List.cons_append, ← List.singleton_append, hunit.readQuoted_append, ih hrun]
    cases readQuoted rest with
    | none => rfl
    | some read => simp [Nat.add_comm 1, Nat.add_right_comm]

theorem readQuoted_eq_none {cs : List Char} (h : cs.head? ≠ some '"') (hunit : unit? cs = none) :
    readQuoted cs = none := by
  rw [readQuoted_of_ne h, hunit, Option.bind_none]

/-- A quoted string is read from the start of every text that begins with it. -/
theorem IsQuoted.readQuoted_append {body value : List Char} (h : IsQuoted body value)
    (rest : List Char) : readQuoted (body ++ rest) = some (value, body.length) := by
  induction h with
  | finish => exact readQuoted_quote rest
  | unit hunit hbody ih =>
    rw [List.append_assoc, hunit.readQuoted_append, ih, Option.map_some, List.length_append]

/-- Every quoted string that is read is one. -/
theorem isQuoted_of_readQuoted {cs value : List Char} {size : Nat}
    (h : readQuoted cs = some (value, size)) :
    ∃ body rest, cs = body ++ rest ∧ body.length = size ∧ IsQuoted body value := by
  induction hn : cs.length using Nat.strongRecOn generalizing cs value size with
  | ind n ih =>
    by_cases hquote : cs.head? = some '"'
    · obtain ⟨rest, rfl⟩ := List.head?_eq_some_iff.1 hquote
      rw [readQuoted_quote] at h
      obtain ⟨rfl, rfl⟩ := Prod.mk.inj (Option.some.inj h)
      exact ⟨['"'], rest, rfl, rfl, .finish⟩
    · cases hunit : unit? cs with
      | none => rw [readQuoted_eq_none hquote hunit] at h; cases h
      | some unit =>
        have hlt := length_drop_lt_of_unit? hunit
        obtain ⟨text, rest, rfl, htext, hisUnit⟩ := isUnit_of_unit? hunit
        rw [hisUnit.readQuoted_append] at h
        obtain ⟨⟨value', size'⟩, hread, he⟩ := Option.map_eq_some_iff.1 h
        obtain ⟨rfl, rfl⟩ := Prod.mk.inj he
        rw [← htext, List.drop_left] at hlt
        obtain ⟨body, rest, rfl, rfl, hbody⟩ := ih _ (hn ▸ hlt) hread rfl
        exact ⟨text ++ body, rest, by rw [List.append_assoc], by rw [List.length_append],
          .unit hisUnit hbody⟩

/-- A text starts with a quoted string behind its opening quote if and only if one is read. -/
theorem readQuoted_eq_some_iff {cs value : List Char} {size : Nat} :
    readQuoted cs = some (value, size) ↔
      ∃ body rest, cs = body ++ rest ∧ body.length = size ∧ IsQuoted body value := by
  refine ⟨isQuoted_of_readQuoted, ?_⟩
  rintro ⟨body, rest, rfl, rfl, h⟩
  exact h.readQuoted_append rest

theorem IsQuoted.ne_nil {body value : List Char} (h : IsQuoted body value) : body ≠ [] := by
  cases h with
  | finish => exact List.cons_ne_nil _ _
  | unit hunit hbody => exact List.append_ne_nil_of_left_ne_nil hunit.head?.1 _

/-- A quoted string is read from its own characters alone. -/
theorem exists_quoted {cs value : List Char} {size : Nat} (h : readQuoted cs = some (value, size)) :
    ∃ body rest, cs = body ++ rest ∧ body.length = size ∧ 0 < size ∧
      ∀ after, readQuoted (body ++ after) = some (value, size) := by
  obtain ⟨body, rest, rfl, rfl, hbody⟩ := isQuoted_of_readQuoted h
  exact ⟨body, rest, rfl, rfl, List.length_pos_iff.2 hbody.ne_nil, hbody.readQuoted_append⟩

/-- A string that can't be read takes its opening quote at least. -/
theorem brokenLength_pos (cs : List Char) : 0 < brokenLength cs := by
  unfold brokenLength
  dsimp only
  split <;> omega

end GraphQLTree.Text
