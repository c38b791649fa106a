import GraphQLTree.Proofs.Token.Significant

/-!
# Literals

What an integer and a float are is said here without the scanner: they are **literals**, made of an
integer part and of a fraction and an exponent or one of them. The text of a scanned number is a literal,
unless it **ends bare**: then it is a literal with an exponent mark behind it (`regular_of_scanNumber`).
A number that ends bare has characters behind it that form no token, so there is none in a text without
lexical error. The tokens of a text are **regular** in this sense, and only the last comment of a word is
inline (`Word.regular_ofText`).
-/

namespace GraphQLTree

namespace Token

/-! ### The grammar of numbers -/

/-- One or more digits. -/
def IsDigits (text : List Char) : Prop :=
  text ≠ [] ∧ ∀ c ∈ text, isDecimal c = true

/-- A zero, or digits that don't start with one, with or without a minus. -/
def IsInteger (text : List Char) : Prop :=
  ∃ minus digits, text = minus ++ digits ∧ minus ∈ [[], ['-']] ∧ IsDigits digits ∧
    (digits.head? = some '0' → digits = ['0'])

/-- A dot and digits. -/
def IsFraction (text : List Char) : Prop :=
  ∃ digits, text = '.' :: digits ∧ IsDigits digits

/-- An exponent mark and digits, with or without a sign. -/
def IsExponent (text : List Char) : Prop :=
  ∃ mark sign digits, text = mark :: (sign ++ digits) ∧ mark ∈ ['e', 'E'] ∧
    sign ∈ [[], ['-'], ['+']] ∧ IsDigits digits

/-- An integer with a fraction, an exponent or both. -/
def IsFloat (text : List Char) : Prop :=
  ∃ integer fraction exponent, text = integer ++ fraction ++ exponent ∧ IsInteger integer ∧
    (fraction = [] ∨ IsFraction fraction) ∧ (exponent = [] ∨ IsExponent exponent) ∧
    (fraction ≠ [] ∨ exponent ≠ [])

/-- Whether a text is a literal but for an exponent mark behind it. -/
def EndsBare (IsLiteral : List Char → Prop) (text : List Char) : Prop :=
  ∃ literal mark, text = literal ++ [mark] ∧ IsLiteral literal ∧ mark ∈ ['e', 'E']

/-- The last character of an integer is a digit. -/
theorem IsInteger.getLast? {text : List Char} (h : IsInteger text) :
    ∀ c ∈ text.getLast?, isDecimal c = true := by
  obtain ⟨minus, digits, rfl, -, ⟨hne, hdigits⟩, -⟩ := h
  intro c hc
  rw [List.getLast?_append, List.getLast?_eq_some_getLast hne, Option.some_or] at hc
  obtain rfl := Option.some.inj hc
  exact hdigits _ (List.getLast_mem hne)

/-! ### The parts of a scanned number -/

theorem isDigits_take {cs : List Char} (h : countDigits cs ≠ 0) :
    IsDigits (cs.take (countDigits cs)) := by
  rw [take_countDigits]
  refine ⟨fun hnil => h ?_, List.all_eq_true.1 List.all_takeWhile⟩
  rw [countDigits, hnil, List.length_nil]

theorem isInteger_take {cs : List Char} (h : HasInteger cs) :
    IsInteger (cs.take (integerLength cs)) := by
  refine ⟨cs.take (minusLength cs), (cs.drop (minusLength cs)).take _, List.take_add, ?_,
    isDigits_take h.digits, fun hhead => ?_⟩
  · cases cs with
    | nil => simp
    | cons c cs =>
      by_cases hc : c = '-'
      · simp [minusLength, hc]
      · simp [minusLength, hc]
  · have hzero := h.zero
    cases hdrop : cs.drop (minusLength cs) with
    | nil => simp [hdrop] at hhead
    | cons c rest =>
      rw [List.head?_take, if_neg h.digits, hdrop] at hhead
      obtain rfl := Option.some.inj hhead
      rw [hdrop] at hzero
      have hone : countDigits ('0' :: rest) = 1 := by simpa using hzero
      rw [hone]
      rfl

theorem isFraction_take {cs : List Char} (h : fractionLength cs ≠ 0) :
    IsFraction (cs.take (fractionLength cs)) := by
  unfold fractionLength at h ⊢
  split at h
  · next rest =>
    split at h
    · exact absurd rfl h
    · next hdigits =>
      rw [if_neg hdigits, Nat.add_comm, List.take_succ_cons]
      exact ⟨_, rfl, isDigits_take hdigits⟩
  · exact absurd rfl h

theorem isExponentMark_iff {c : Char} : isExponentMark c = true ↔ c ∈ ['e', 'E'] := by
  simp [isExponentMark]

theorem isExponent_take {cs : List Char} (h : exponentLength cs ≠ 0) :
    IsExponent (cs.take (exponentLength cs)) := by
  cases cs with
  | nil => exact absurd rfl h
  | cons mark rest =>
    simp only [exponentLength] at h ⊢
    split at h
    · next hmark =>
      obtain ⟨hmark, hdigits⟩ := Bool.and_eq_true_iff.1 hmark
      rw [if_pos (by simp [hmark, hdigits]), Nat.add_assoc, Nat.add_comm, List.take_succ_cons,
        List.take_add]
      refine ⟨mark, _, _, rfl, isExponentMark_iff.1 hmark, ?_, isDigits_take (by simpa using hdigits)⟩
      cases rest with
      | nil => simp
      | cons c rest =>
        by_cases hminus : c = '-'
        · simp [signLength, hminus]
        · by_cases hplus : c = '+'
          · simp [signLength, hplus]
          · simp [signLength, hminus, hplus]
    · exact absurd rfl h

theorem IsFraction.ne_nil {text : List Char} (h : IsFraction text) : text ≠ [] := by
  obtain ⟨digits, rfl, -⟩ := h
  exact List.cons_ne_nil _ _

theorem IsExponent.ne_nil {text : List Char} (h : IsExponent text) : text ≠ [] := by
  obtain ⟨mark, sign, digits, rfl, -⟩ := h
  exact List.cons_ne_nil _ _

/-- A number without fraction and exponent is an integer. -/
theorem isInteger_take_body {cs : List Char} (h : HasInteger cs)
    (hfraction : fractionLength (cs.drop (integerLength cs)) = 0) :
    IsInteger (cs.take (bodyLength cs)) := by
  rw [bodyLength, hfraction, Nat.add_zero]
  exact isInteger_take h

/-- A number with a fraction or an exponent is a float. -/
theorem isFloat_take_size {cs : List Char} (h : HasInteger cs)
    (hne : fractionLength (cs.drop (integerLength cs)) +
      exponentLength (cs.drop (bodyLength cs)) ≠ 0) :
    IsFloat (cs.take (bodyLength cs + exponentLength (cs.drop (bodyLength cs)))) := by
  refine ⟨cs.take (integerLength cs),
    (cs.drop (integerLength cs)).take (fractionLength (cs.drop (integerLength cs))),
    (cs.drop (bodyLength cs)).take (exponentLength (cs.drop (bodyLength cs))), ?_,
    isInteger_take h, ?_, ?_, ?_⟩
  · rw [List.take_add, bodyLength, List.take_add]
  · refine Decidable.or_iff_not_imp_left.2 fun hnil => isFraction_take fun hzero => hnil ?_
    rw [hzero, List.take_zero]
  · refine Decidable.or_iff_not_imp_left.2 fun hnil => isExponent_take fun hzero => hnil ?_
    rw [hzero, List.take_zero]
  · by_cases hfraction : fractionLength (cs.drop (integerLength cs)) = 0
    · exact .inr (isExponent_take (by omega)).ne_nil
    · exact .inl (isFraction_take hfraction).ne_nil

/-- A bare exponent leaves its mark behind what stands before it. -/
theorem endsBare_take {IsLiteral : List Char → Prop} {cs : List Char} {n : Nat}
    (h : IsLiteral (cs.take n)) (hbare : hasBareExponent (cs.drop n) = true) :
    EndsBare IsLiteral (cs.take (n + 1)) := by
  cases hrest : cs.drop n with
  | nil => rw [hrest] at hbare; cases hbare
  | cons mark rest =>
    rw [hrest] at hbare
    refine ⟨_, mark, ?_, h, isExponentMark_iff.1 (Bool.and_eq_true_iff.1 hbare).1⟩
    rw [List.take_add, hrest]
    rfl

/-! ### Regular tokens -/

/-- What is known of a token that was scanned: names are names, numbers are literals or, if `bare` says
that they may, end bare, and block strings are dedented. -/
def Regular (bare : Prop) : Token → Prop
  | name text => IsName text.toList
  | int text => IsInteger text.toList ∨ bare ∧ EndsBare IsInteger text.toList
  | float text => IsFloat text.toList ∨ bare ∧ EndsBare IsFloat text.toList
  | blockString value => ∃ raw, value = String.ofList (Text.dedent raw)
  | _ => True

theorem Regular.mono {bare bare' : Prop} {token : Token} (h : token.Regular bare)
    (himp : bare → bare') : token.Regular bare' := by
  cases token with
  | int text => exact Or.imp id (And.imp himp id) h
  | float text => exact Or.imp id (And.imp himp id) h
  | _ => exact h

/-- The text of a scanned number is a literal or ends bare. -/
theorem regular_of_scanNumber (cs : List Char) : (scanNumber cs).1.Regular True := by
  rw [scanNumber_eq]
  split
  · trivial
  next hdigits =>
  split
  · trivial
  next hzero =>
  have hinteger : HasInteger cs := ⟨hdigits, by simpa using hzero⟩
  have hfloat := isFloat_take_size hinteger
  dsimp only
  split
  · next hbare =>
    simp only [Bool.and_eq_true, decide_eq_true_eq] at hbare
    rw [hbare.1, Nat.add_zero, Nat.add_zero] at hfloat ⊢
    split
    · next hfraction =>
      rw [Regular, String.toList_ofList]
      exact .inr ⟨trivial, endsBare_take (isInteger_take_body hinteger hfraction) hbare.2⟩
    · next hfraction =>
      rw [Regular, String.toList_ofList]
      exact .inr ⟨trivial, endsBare_take (hfloat hfraction) hbare.2⟩
  split
  · trivial
  split
  · next hnone =>
    obtain ⟨hfraction, hexponent⟩ := Nat.add_eq_zero_iff.1 hnone
    rw [Regular, String.toList_ofList, hexponent, Nat.add_zero]
    exact .inl (isInteger_take_body hinteger hfraction)
  · next hsome =>
    rw [Regular, String.toList_ofList]
    exact .inl (hfloat hsome)

private theorem regular_of_scanString (cs : List Char) : (scanString cs).1.Regular True := by
  unfold scanString
  split
  · split
    · exact ⟨_, rfl⟩
    · trivial
  · split <;> trivial

/-- A number that scans as itself doesn't end bare. -/
theorem IsWholeNumber.not_endsBare {token : Token} (h : token.IsWholeNumber)
    (IsLiteral : List Char → Prop) : ¬EndsBare IsLiteral token.write := by
  rintro ⟨literal, mark, htext, -, hmark⟩
  have hdigit := isDecimal_getLast_of_scanNumber h.2 h.1.ne_invalid mark (by simp [htext])
  simp only [List.mem_cons, List.not_mem_nil, or_false] at hmark
  rcases hmark with rfl | rfl <;> cases hdigit

/-- Sound tokens are regular, and no number among them ends bare. -/
theorem Sound.regular {token : Token} (h : token.Sound) : token.Regular False := by
  have hnumber (hwhole : token.IsWholeNumber) : token.Regular True := by
    have hregular := regular_of_scanNumber token.write
    rwa [hwhole.2] at hregular
  cases token with
  | int text => exact .inl ((hnumber h).resolve_right fun hbare => h.not_endsBare _ hbare.2)
  | float text => exact .inl ((hnumber h).resolve_right fun hbare => h.not_endsBare _ hbare.2)
  | invalid => exact trivial
  | punct p => exact trivial
  | string value => exact trivial
  | comment text => exact trivial
  | _ => exact h

/-- A token that is scanned is regular. -/
theorem regular_of_scan (c : Char) (cs : List Char) : (scan c cs).1.Regular True := by
  unfold scan
  split
  · trivial
  split
  · split <;> trivial
  split
  · trivial
  split
  · exact regular_of_scanString cs
  split
  · exact regular_of_scanNumber (c :: cs)
  split
  · next hstart =>
    rw [Regular, String.toList_ofList]
    exact ⟨hstart, List.all_eq_true.1 List.all_takeWhile⟩
  · trivial

end Token

/-! ### Words -/

theorem Scrap.regular_of_mem_scanAll (cs : List Char) :
    ∀ scrap ∈ scanAll cs, scrap.token.Regular True := by
  induction cs using scanAll_induction with
  | none cs h => rw [scanAll_of_none h]; simp
  | some cs scrap rest h ih =>
    rw [scanAll_of_some h]
    refine List.forall_mem_cons.2 ⟨?_, ih⟩
    unfold next? at h
    split at h
    · cases h
    · next c l hcl =>
      obtain ⟨rfl, -⟩ := Prod.mk.inj (Option.some.inj h)
      exact Token.regular_of_scan c l

namespace Word

/-- What is known of a word that was read: its token is regular, and only its last comment is inline. -/
structure Regular (bare : Prop) (word : Word) : Prop where
  token : word.token.Regular bare
  inline : ∀ comment ∈ word.comments.dropLast, comment.inline = false

theorem Regular.mono {bare bare' : Prop} {word : Word} (h : word.Regular bare) (himp : bare → bare') :
    word.Regular bare' :=
  ⟨h.token.mono himp, h.inline⟩

theorem regular_ofScraps (pending : List Comment) (scraps : List Scrap)
    (hpending : ∀ comment ∈ pending, comment.inline = false)
    (hscraps : ∀ scrap ∈ scraps, scrap.token.Regular True) :
    ∀ word ∈ (ofScraps pending scraps).1, word.Regular True := by
  induction pending, scraps using ofScraps_induction with
  | nil pending => simp [ofScraps]
  | comment pending gap text written rest ih =>
    rw [ofScraps_comment]
    refine ih ?_ (List.forall_mem_cons.1 hscraps).2
    exact List.forall_mem_append.2 ⟨hpending, List.forall_mem_singleton.2 rfl⟩
  | inline pending before token written gap text written' rest hc hv hgap ih =>
    rw [ofScraps_inline _ hc hv hgap]
    obtain ⟨htoken, hscraps⟩ := List.forall_mem_cons.1 hscraps
    refine List.forall_mem_cons.2 ⟨⟨htoken, ?_⟩, ih (by simp) (List.forall_mem_cons.1 hscraps).2⟩
    rwa [List.dropLast_concat]
  | token pending before token written rest hc h ih =>
    rw [ofScraps_token _ hc h]
    obtain ⟨htoken, hscraps⟩ := List.forall_mem_cons.1 hscraps
    refine List.forall_mem_cons.2 ⟨⟨htoken, fun comment hmem => ?_⟩, ih (by simp) hscraps⟩
    exact hpending comment (List.dropLast_subset _ hmem)

/-- The words of a text are regular, and no number among them ends bare if it has no lexical error. -/
theorem regular_ofText (text : String) :
    ∀ word ∈ (ofText text.toList).1, word.Regular ((tokenize text).2 ≠ none) := by
  intro word hword
  have hregular := regular_ofScraps [] _ (by simp) (Scrap.regular_of_mem_scanAll text.toList) word hword
  by_cases hvalid : (tokenize text).2 = none
  · have hsound := (lexed_ofText text.toList).sound ((tokenize_eq_none_iff text).1 hvalid) word hword
    exact ⟨hsound.regular.mono False.elim, hregular.inline⟩
  · exact hregular.mono fun _ => hvalid

end Word

end GraphQLTree
