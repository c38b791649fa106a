import GraphQLTree.Proofs.Text.BlockString
import GraphQLTree.Proofs.Text.Quoted
import GraphQLTree.Proofs.Token.Number
import GraphQLTree.Token.Scan

/-!
# Legible tokens

Every token is **written** in one way, which need not be the way it was read from. A token is
**legible** when what it is written as scans as that token again, in front of every text that may
follow it directly. The tokens of a text are legible, with one exception: a number that ends in a
bare exponent mark (`legible_or_bare_of_scan`).
-/

namespace GraphQLTree.Token

/-- A token as it is written. Characters that form no token are not written. -/
def write : Token → List Char
  | punct p => p.text.toList
  | name text => text.toList
  | int text => text.toList
  | float text => text.toList
  | string value => Text.quote value.toList
  | blockString value => Text.blockQuote value.toList
  | comment text => '#' :: text.toList
  | invalid => []

/-- Whether a text may follow a token directly. -/
def Parts : Token → List Char → Prop
  | punct _, _ => True
  | name _, after => ∀ c ∈ after.head?, isNamePart c = false
  | int _, after => ∀ c ∈ after.head?, isNamePart c = false ∧ c ≠ '.' ∧ c ≠ '-' ∧ c ≠ '+'
  | float _, after => ∀ c ∈ after.head?, isNamePart c = false ∧ c ≠ '.' ∧ c ≠ '-' ∧ c ≠ '+'
  | string _, after => after.head? ≠ some '"'
  | blockString _, _ => True
  | comment _, after => ∀ c ∈ after.head?, isCommentPart c = false
  | invalid, _ => True

/-- Whether a token is scanned at the start of a text. -/
def ScansFrom (token : Token) (size : Nat) : List Char → Prop
  | [] => False
  | c :: cs => scan c cs = (token, size)

/-- Whether a token scans again wherever it is written. -/
def Legible (token : Token) : Prop :=
  ∀ after, token.Parts after → token.ScansFrom token.write.length (token.write ++ after)

/-! ### Names, comments and punctuators -/

/-- Whether a text is a name. -/
def IsName : List Char → Prop
  | [] => False
  | c :: cs => isNameStart c = true ∧ ∀ d ∈ cs, isNamePart d = true

instance : DecidablePred IsName
  | [] => isFalse id
  | c :: cs => decidable_of_iff (isNameStart c = true ∧ cs.all isNamePart = true)
    (and_congr_right' List.all_eq_true)

theorem legible_punct (p : Punctuator) : (punct p).Legible := by
  intro after _
  cases p <;> rfl

private theorem isDecimal_of_isNameStart {c : Char} (h : isNameStart c = true) :
    isDecimal c = false := by
  simp only [isNameStart, isDecimal, Bool.or_eq_true, Bool.and_eq_true, decide_eq_true_eq,
    beq_iff_eq, Bool.and_eq_false_iff, decide_eq_false_iff_not, Char.le_def,
    UInt32.le_iff_toNat_le] at h ⊢
  rcases h with (rfl | h) | h
  · decide
  · exact .inr (by have := h.1; simp at this ⊢; omega)
  · exact .inr (by have := h.1; simp at this ⊢; omega)

/-- The characters that punctuators, comments and strings start with. -/
def signs : List Char :=
  ['!', '$', '&', '(', ')', ':', '=', '@', '[', ']', '\x7b', '|', '\x7d', '.', '#', '"']

theorem notMem_signs {sort : Char → Bool} (hsigns : signs.any sort = false) {c : Char}
    (h : sort c = true) : c ∉ signs :=
  fun hmem => List.any_eq_false.1 hsigns c hmem h

/-- Only numbers and names start with any other character. -/
theorem scan_of_notMem_signs {c : Char} (h : c ∉ signs) (cs : List Char) :
    scan c cs =
      if c == '-' || isDecimal c then scanNumber (c :: cs)
      else if isNameStart c then
        (.name (String.ofList (c :: cs.takeWhile isNamePart)), (cs.takeWhile isNamePart).length + 1)
      else (.invalid, 1) := by
  have hne (d : Char) (hd : d ∈ signs) : c ≠ d := fun heq => h (heq ▸ hd)
  have hpunct : Punctuator.ofChar? c = none := by
    unfold Punctuator.ofChar?
    split <;> first | rfl | exact absurd (by decide) h
  have hdot := hne '.' (by decide)
  have hhash := hne '#' (by decide)
  have hquote := hne '"' (by decide)
  simp [scan, hpunct, hdot, hhash, hquote]

/-- A name is scanned whole. -/
theorem scan_name {c : Char} (h : isNameStart c = true) (cs : List Char) :
    scan c cs = (.name (String.ofList (c :: cs.takeWhile isNamePart)),
      (cs.takeWhile isNamePart).length + 1) := by
  have hminus : c ≠ '-' := by
    rintro rfl
    exact absurd h (by decide)
  rw [scan_of_notMem_signs (notMem_signs (by decide) h)]
  simp [hminus, isDecimal_of_isNameStart h, h]

theorem legible_name {text : String} (h : IsName text.toList) : (name text).Legible := by
  intro after hafter
  cases hcs : text.toList with
  | nil => rw [hcs] at h; cases h
  | cons c cs =>
    rw [hcs] at h
    simp only [write, hcs, List.cons_append, ScansFrom]
    rw [scan_name h.1, Text.takeWhile_append_of_stops h.2 hafter, ← hcs, String.ofList_toList, hcs]
    rfl

theorem legible_comment {text : String} (h : ∀ c ∈ text.toList, isCommentPart c = true) :
    (comment text).Legible := by
  intro after hafter
  have htext := Text.takeWhile_append_of_stops h hafter
  simp [write, ScansFrom, scan, Punctuator.ofChar?, htext, String.ofList_toList, Nat.add_comm]

/-! ### Strings -/

theorem scan_quote (cs : List Char) : scan '"' cs = scanString cs := rfl

/-- The text of a quoted string behind its opening quote doesn't open a block string. -/
private theorem not_quotes_of_escaped {cs after rest : List Char} (h : after.head? ≠ some '"') :
    cs.flatMap Text.escapeChar ++ '"' :: after ≠ '"' :: '"' :: rest := by
  cases cs with
  | nil =>
    intro he
    exact h (by rw [(List.cons.inj he).2]; rfl)
  | cons c cs =>
    have hne := Text.escapeChar_ne_nil c
    have hhead := Text.head?_escapeChar c
    cases hc : Text.escapeChar c with
    | nil => exact absurd hc hne
    | cons d ds =>
      intro he
      rw [List.flatMap_cons, hc] at he
      refine hhead ?_
      rw [hc, (List.cons.inj he).1]
      rfl

theorem legible_string (value : String) : (string value).Legible := by
  intro after hafter
  have htext : (string value).write ++ after =
      '"' :: (value.toList.flatMap Text.escapeChar ++ '"' :: after) := by
    simp [write, Text.quote]
  rw [htext, ScansFrom, scan_quote,
    scanString.eq_2 _ fun _ he => not_quotes_of_escaped hafter he, Text.readQuoted_escape]
  simp [write, Text.quote, String.ofList_toList]

/-- A value of a block string is legible. -/
theorem legible_blockString (raw : List Char) :
    (blockString (String.ofList (Text.dedent raw))).Legible := by
  intro after _
  obtain ⟨body, hbody, hread⟩ := Text.readBlock_writtenRaw (Text.dedent raw) after
  have htext : (blockString (String.ofList (Text.dedent raw))).write = '"' :: '"' :: '"' :: body := by
    rw [write, String.toList_ofList, hbody]
    rfl
  rw [htext, List.cons_append, List.cons_append, List.cons_append, ScansFrom, scan_quote,
    scanString, hread]
  simp [Text.dedent_writtenRaw]

/-! ### Numbers -/

/-- Whether a token is the number that its text alone scans as. -/
def IsWholeNumber (token : Token) : Prop :=
  IsNumber token token.write ∧ scanNumber token.write = (token, token.write.length)

theorem IsNumber.ne_invalid {token : Token} {text : List Char} (h : IsNumber token text) :
    token ≠ .invalid := by
  rcases h with rfl | rfl <;> exact Token.noConfusion

theorem IsNumber.write {token : Token} {text : List Char} (h : IsNumber token text) :
    token.write = text := by
  rcases h with rfl | rfl <;> exact String.toList_ofList

/-- Whether a character can be the first of a number. -/
def startsNumber (c : Char) : Bool :=
  c == '-' || isDecimal c

theorem scan_number {c : Char} (h : startsNumber c = true) (cs : List Char) :
    scan c cs = scanNumber (c :: cs) := by
  rw [scan_of_notMem_signs (notMem_signs (by decide) h)]
  exact if_pos h

/-- What scans as a number starts like one. -/
theorem startsNumber_of_scanNumber {cs : List Char} {token : Token} {size : Nat}
    (h : scanNumber cs = (token, size)) (hv : token ≠ .invalid) :
    ∃ c l, cs = c :: l ∧ startsNumber c = true := by
  cases cs with
  | nil => exact absurd (Prod.ext_iff.1 h).1.symm hv
  | cons c l =>
    refine ⟨c, l, rfl, ?_⟩
    cases hc : startsNumber c with
    | true => rfl
    | false =>
      simp only [startsNumber, Bool.or_eq_false_iff, beq_eq_false_iff_ne] at hc
      have hminus : minusLength (c :: l) = 0 := by simp [minusLength, hc.1]
      have hdigits : countDigits (c :: l) = 0 := by simp [countDigits, hc.2]
      rw [scanNumber_eq, hminus, List.drop_zero, if_pos hdigits] at h
      exact absurd (Prod.ext_iff.1 h).1.symm hv

theorem apart_of_parts {token : Token} {text after : List Char} (hnumber : IsNumber token text)
    (h : token.Parts after) : Apart text after := by
  have hafter : ∀ c ∈ after.head?, isNamePart c = false ∧ c ≠ '.' ∧ c ≠ '-' ∧ c ≠ '+' := by
    rcases hnumber with rfl | rfl <;> exact h
  refine ⟨fun c hc => (hafter c hc).1, fun hc => (hafter _ hc).2.1 rfl, fun _ => ?_⟩
  cases after with
  | nil => rfl
  | cons c after =>
    have := hafter c rfl
    simp [startsSigned, this]

theorem legible_number {token : Token} (h : token.IsWholeNumber) : token.Legible := by
  intro after hafter
  obtain ⟨hnumber, hscan⟩ := h
  obtain ⟨c, l, hcl, hc⟩ := startsNumber_of_scanNumber hscan hnumber.ne_invalid
  have hne : token.write ≠ [] := by rw [hcl]; simp
  rw [← scanNumber_append hne (apart_of_parts hnumber hafter), hcl, List.cons_append,
    ← scan_number hc] at hscan
  rw [hcl, List.cons_append]
  exact hscan

/-! ### The tokens of a text -/

/-- A number that ends in a bare exponent mark, whose text alone is no number. -/
structure IsBareNumber (token : Token) : Prop where
  number : IsNumber token token.write
  invalid : scanNumber token.write = (.invalid, token.write.length)
  start : ∃ c l, token.write = c :: l ∧ startsNumber c = true
  mark : ∃ mark ∈ token.write.getLast?, isExponentMark mark = true

theorem not_isBareNumber_comment (text : String) : ¬(comment text).IsBareNumber := by
  intro h
  rcases h.number with he | he <;> cases he

/-- A bare number scans as characters that form no token. -/
theorem IsBareNumber.scansFrom {token : Token} (h : token.IsBareNumber) {after : List Char}
    (hafter : token.Parts after) :
    Token.invalid.ScansFrom token.write.length (token.write ++ after) := by
  obtain ⟨c, l, hcl, hc⟩ := h.start
  have hscan := h.invalid
  have hne : token.write ≠ [] := by rw [hcl]; simp
  rw [← scanNumber_append hne (apart_of_parts h.number hafter), hcl, List.cons_append,
    ← scan_number hc] at hscan
  rw [hcl, List.cons_append]
  exact hscan

/-- What is known of a token that can be written and scanned again. -/
def Sound : Token → Prop
  | punct _ => True
  | name text => IsName text.toList
  | int text => (int text).IsWholeNumber
  | float text => (float text).IsWholeNumber
  | string _ => True
  | blockString value => ∃ raw, value = String.ofList (Text.dedent raw)
  | comment text => ∀ c ∈ text.toList, isCommentPart c = true
  | invalid => False

theorem Sound.legible {token : Token} (h : token.Sound) : token.Legible := by
  cases token with
  | punct p => exact legible_punct p
  | name text => exact legible_name h
  | int text => exact legible_number h
  | float text => exact legible_number h
  | string value => exact legible_string value
  | blockString value =>
    obtain ⟨raw, rfl⟩ := h
    exact legible_blockString raw
  | comment text => exact legible_comment h
  | invalid => exact absurd h id

/-- Whether a text starts with a character that forms no token. -/
def StartsInvalid : List Char → Prop
  | [] => False
  | c :: cs => isIgnored c = false ∧ (scan c cs).1 = .invalid

/-- Neither a plus nor a minus without digits starts a token. -/
private theorem startsInvalid_sign {sign : Char} {rest : List Char}
    (hsign : startsSigned (sign :: rest) = true) (hrest : countDigits rest = 0) :
    StartsInvalid (sign :: rest) := by
  have hc : sign = '-' ∨ sign = '+' := by simpa [startsSigned] using hsign
  rcases hc with rfl | rfl
  · refine ⟨rfl, ?_⟩
    rw [scan_number rfl, scanNumber_eq]
    exact congrArg Prod.fst (if_pos hrest)
  · exact ⟨rfl, rfl⟩

private theorem sound_or_bare_of_scanNumber {cs : List Char} {token : Token} {size : Nat}
    (h : scanNumber cs = (token, size)) (hv : token ≠ .invalid) :
    token.Sound ∨ token.IsBareNumber ∧ StartsInvalid (cs.drop size) := by
  obtain ⟨hnumber, hpos, hle, hend⟩ := scanNumber_take h hv
  have hwrite := hnumber.write
  have hlen : (cs.take size).length = size := List.length_take_of_le hle
  rcases hend with hwhole | ⟨hbare, hmark, sign, rest, hdrop, hsign, hrest⟩
  · left
    have hw : token.IsWholeNumber := ⟨by rwa [hwrite], by rw [hwrite, hlen, hwhole]⟩
    rcases hnumber with rfl | rfl <;> exact hw
  · right
    obtain ⟨c, l, rfl, hc⟩ := startsNumber_of_scanNumber h hv
    obtain ⟨n, rfl⟩ : ∃ n, size = n + 1 := ⟨size - 1, by omega⟩
    rw [hdrop]
    exact ⟨⟨by rwa [hwrite], by rw [hwrite, hlen, hbare], ⟨c, l.take n, by rw [hwrite]; rfl, hc⟩,
      by rwa [hwrite]⟩, startsInvalid_sign hsign hrest⟩

private theorem sound_of_scanString (cs : List Char) :
    (scanString cs).1 = .invalid ∨ (scanString cs).1.Sound := by
  unfold scanString
  split
  · split
    · exact .inr ⟨_, rfl⟩
    · exact .inl rfl
  · split
    · exact .inr trivial
    · exact .inl rfl

/-- The tokens of a text are legible but for a number that ends in a bare exponent mark, behind
which no token starts. -/
theorem sound_or_bare_of_scan {c : Char} {cs : List Char} {token : Token} {size : Nat}
    (h : scan c cs = (token, size)) (hv : token ≠ .invalid) :
    token.Sound ∨ token.IsBareNumber ∧ StartsInvalid ((c :: cs).drop size) := by
  unfold scan at h
  split at h
  · obtain ⟨rfl, -⟩ := Prod.ext_iff.1 h
    exact .inl trivial
  · split at h
    · split at h
      · obtain ⟨rfl, -⟩ := Prod.ext_iff.1 h
        exact .inl trivial
      · exact absurd (Prod.ext_iff.1 h).1.symm hv
    · split at h
      · obtain ⟨rfl, -⟩ := Prod.ext_iff.1 h
        refine .inl fun d hd => ?_
        rw [String.toList_ofList] at hd
        exact List.all_eq_true.1 List.all_takeWhile d hd
      · split at h
        · have hs := sound_of_scanString cs
          rw [h] at hs
          exact .inl (hs.resolve_left hv)
        · split at h
          · exact sound_or_bare_of_scanNumber h hv
          · split at h
            · next hstart =>
              obtain ⟨rfl, -⟩ := Prod.ext_iff.1 h
              refine .inl ?_
              simp only [Sound, String.toList_ofList]
              exact ⟨hstart, fun d hd => List.all_eq_true.1 List.all_takeWhile d hd⟩
            · exact absurd (Prod.ext_iff.1 h).1.symm hv

/-! ### The characters of written tokens -/

/-- Whether a token can be scanned, or could be before it was written. -/
def Known (token : Token) : Prop :=
  token.Sound ∨ token.IsBareNumber

/-- The token that a written token scans as. -/
def rescanned : Token → Token
  | int text => if (scanNumber text.toList).1 = .invalid then .invalid else .int text
  | float text => if (scanNumber text.toList).1 = .invalid then .invalid else .float text
  | token => token

theorem Sound.rescanned {token : Token} (h : token.Sound) : token.rescanned = token := by
  have hnumber (hw : token.IsWholeNumber) : (scanNumber token.write).1 ≠ .invalid := by
    rw [hw.2]
    exact hw.1.ne_invalid
  cases token with
  | int text => exact if_neg (hnumber h)
  | float text => exact if_neg (hnumber h)
  | _ => rfl

theorem IsBareNumber.rescanned {token : Token} (h : token.IsBareNumber) :
    token.rescanned = .invalid := by
  have hinvalid : (scanNumber token.write).1 = .invalid := by rw [h.invalid]
  rcases h.number with he | he <;> rw [he] at hinvalid ⊢ <;> exact if_pos hinvalid

theorem Known.scansFrom {token : Token} (h : token.Known) {after : List Char}
    (hafter : token.Parts after) :
    token.rescanned.ScansFrom token.write.length (token.write ++ after) := by
  rcases h with h | h
  · rw [h.rescanned]
    exact h.legible after hafter
  · rw [h.rescanned]
    exact h.scansFrom hafter

theorem scan_ignored {c : Char} (h : isIgnored c = true) (cs : List Char) :
    scan c cs = (.invalid, 1) := by
  simp only [isIgnored, Bool.or_eq_true, beq_iff_eq] at h
  rcases h with ((((rfl | rfl) | rfl) | rfl) | rfl) | rfl <;> rfl

theorem isIgnored_eq_false_of_isNamePart {c : Char} (h : isNamePart c = true) :
    isIgnored c = false := by
  cases hc : isIgnored c with
  | false => rfl
  | true =>
    simp only [isIgnored, Bool.or_eq_true, beq_iff_eq] at hc
    rcases hc with ((((rfl | rfl) | rfl) | rfl) | rfl) | rfl <;> exact absurd h (by decide)

theorem parts_nil (token : Token) : token.Parts [] := by
  cases token <;> simp [Parts]

theorem Sound.ne_invalid {token : Token} (h : token.Sound) : token ≠ .invalid := by
  rintro rfl
  exact h

/-- A written token starts with a character that isn't ignored. -/
theorem Known.exists_cons {token : Token} (h : token.Known) :
    ∃ c l, token.write = c :: l ∧ isIgnored c = false := by
  rcases h with h | h
  · have hscan := h.legible [] (parts_nil token)
    rw [List.append_nil] at hscan
    cases hw : token.write with
    | nil => rw [hw] at hscan; exact absurd hscan id
    | cons c l =>
      rw [hw] at hscan
      refine ⟨c, l, rfl, ?_⟩
      cases hc : isIgnored c with
      | false => rfl
      | true =>
        rw [ScansFrom, scan_ignored hc] at hscan
        exact absurd (Prod.ext_iff.1 hscan).1.symm h.ne_invalid
  · obtain ⟨c, l, hcl, hc⟩ := h.start
    refine ⟨c, l, hcl, ?_⟩
    simp only [startsNumber, Bool.or_eq_true, beq_iff_eq] at hc
    rcases hc with rfl | hc
    · rfl
    · exact isIgnored_eq_false_of_isNamePart (by simp [isNamePart, hc])

/-- Whether a token is a comment. -/
def isComment : Token → Bool
  | comment _ => true
  | _ => false

/-- A written token other than a comment ends in a character that isn't ignored. -/
theorem Known.getLast? {token : Token} (h : token.Known) (hc : token.isComment = false) :
    ∀ c ∈ token.write.getLast?, isIgnored c = false := by
  intro c hlast
  rcases h with h | h
  · have hwhole (hw : token.IsWholeNumber) : isIgnored c = false := by
      have hd := isDecimal_getLast_of_scanNumber hw.2 hw.1.ne_invalid c hlast
      exact isIgnored_eq_false_of_isNamePart (by simp [isNamePart, hd])
    cases token with
    | punct p =>
      have hall : (punct p).write.getLast?.all (!isIgnored ·) = true := by cases p <;> rfl
      rw [Option.mem_def.1 hlast] at hall
      simpa using hall
    | name text =>
      have hmem := List.mem_of_getLast? hlast
      simp only [write, Sound] at hmem h
      cases htext : text.toList with
      | nil => rw [htext] at hmem; cases hmem
      | cons d l =>
        rw [htext] at hmem h
        refine isIgnored_eq_false_of_isNamePart ?_
        rcases List.mem_cons.1 hmem with rfl | hmem
        · simp [isNamePart, h.1]
        · exact h.2 c hmem
    | int text => exact hwhole h
    | float text => exact hwhole h
    | string value =>
      rw [write, Text.quote, List.getLast?_concat] at hlast
      obtain rfl := Option.some.inj hlast
      rfl
    | blockString value =>
      rw [write, Text.blockQuote, List.getLast?_append] at hlast
      obtain rfl := Option.some.inj hlast
      rfl
    | comment text => cases hc
    | invalid => exact absurd h id
  · obtain ⟨mark, hmark, he⟩ := h.mark
    obtain rfl : mark = c := Option.some.inj (hmark.symm.trans hlast)
    simp only [isExponentMark, Bool.or_eq_true, beq_iff_eq] at he
    rcases he with rfl | rfl <;> rfl

/-! ### What may follow a token -/

/-- A token may be followed directly by a character that nothing carries on with. -/
private theorem parts_cons {token : Token} (hcomment : token.isComment = false) {c : Char}
    (hc : isNamePart c = false ∧ c ≠ '.' ∧ c ≠ '-' ∧ c ≠ '+') (hquote : c ≠ '"')
    (after : List Char) : token.Parts (c :: after) := by
  cases token with
  | comment text => cases hcomment
  | name text => simpa [Parts] using hc.1
  | int text => simpa [Parts] using hc
  | float text => simpa [Parts] using hc
  | string value => simpa [Parts] using hquote
  | _ => trivial

/-- A token may be followed directly by ignored characters. -/
theorem parts_of_ignored {token : Token} (hcomment : token.isComment = false) {c : Char}
    (hc : isIgnored c = true) (after : List Char) : token.Parts (c :: after) := by
  simp only [isIgnored, Bool.or_eq_true, beq_iff_eq] at hc
  rcases hc with ((((rfl | rfl) | rfl) | rfl) | rfl) | rfl <;>
    exact parts_cons hcomment (by decide) (by decide) after

/-- A token may be followed directly by a comment. -/
theorem parts_of_comment {token : Token} (hcomment : token.isComment = false)
    (after : List Char) : token.Parts ('#' :: after) :=
  parts_cons hcomment (by decide) (by decide) after

end GraphQLTree.Token

namespace GraphQLTree

theorem Punctuator.sound (p : Punctuator) : (Token.punct p).Sound :=
  trivial

theorem Keyword.sound (k : Keyword) : (Token.name k.text).Sound := by
  have hname : Token.IsName k.text.toList := by cases k <;> decide
  exact hname

end GraphQLTree
