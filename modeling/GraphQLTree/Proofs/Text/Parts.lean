import GraphQLTree.Proofs.Text.Units
import GraphQLTree.Text.Parts

/-!
# Strings in parts and in units

Reading a string in parts, from a window, gives what reading it in units from a list of characters does,
whatever is in front of it: the value, and the window behind as many characters. Nothing is ever cut at
an offset where it can't be cut. A string that can't be read leaves the window in front of its first
escape, if it comes to one (`readString?_around`). Likewise for block strings
(`readBlockString?_around`).
-/

namespace GraphQLTree.Text

/-! ### Characters of one byte -/

theorem utf8Size_of_isHexDigit {c : Char} (h : isHexDigit c = true) : c.utf8Size = 1 := by
  rw [Char.utf8Size_eq_one_iff, UInt32.le_iff_toNat_le]
  simp only [isHexDigit, hexDigit?, Char.le_def, UInt32.le_iff_toNat_le] at h
  have hle : c.val.toNat ≤ 'f'.val.toNat := by
    split at h
    · next hc => exact Nat.le_trans hc.2 (by decide)
    split at h
    · next hc => exact hc.2
    split at h
    · next hc => exact Nat.le_trans hc.2 (by decide)
    · cases h
  exact Nat.le_trans hle (by decide)

/-- A text of characters of one byte each has as many bytes as characters. -/
theorem utf8Length_eq_length {cs : List Char} (h : ∀ c ∈ cs, c.utf8Size = 1) :
    utf8Length cs = cs.length := by
  induction cs with
  | nil => rfl
  | cons c cs ih =>
    obtain ⟨hc, hcs⟩ := List.forall_mem_cons.1 h
    rw [utf8Length_cons, hc, ih hcs, List.length_cons, Nat.add_comm]

theorem Denotes.utf8Length {digits : List Char} {n : Nat} (h : Denotes digits n) :
    utf8Length digits = digits.length :=
  utf8Length_eq_length fun d hd => utf8Size_of_isHexDigit (h.all_digits d hd)

theorem Denotes.utf8Length_fixed {digits : List Char} {n : Nat} (h : Denotes digits n)
    (hlength : digits.length = 4) : Text.utf8Length ('\\' :: 'u' :: digits) = 6 := by
  rw [utf8Length_cons, utf8Length_cons, h.utf8Length, hlength]
  decide

/-- A window that is made longer by the six bytes of a fixed escape takes the escape. -/
theorem Denotes.bump?_around {digits : List Char} {n : Nat} (h : Denotes digits n)
    (hlength : digits.length = 4) (before inside after : List Char) :
    (Window.around before inside ('\\' :: 'u' :: digits ++ after)).bump? 6 =
      some (.around before (inside ++ '\\' :: 'u' :: digits) after) := by
  rw [← h.utf8Length_fixed hlength, Window.bump?_around]

/-! ### Numbers -/

section Numbers

variable (hex : HexReader) {digits cs : List Char} {n : Nat}

theorem HexReader.read_of_denotes (h : Denotes digits n) :
    hex.read digits = if n < UInt32.size then some n else none := by
  rw [hex.read_digits digits h.ne_nil h.all_digits, h.number]

/-- The number of a character fits. -/
theorem HexReader.bind_scalar? (h : Denotes digits n) : (hex.read digits).bind scalar? = scalar? n := by
  rw [hex.read_of_denotes h]
  split
  · rfl
  · next hn =>
    have hlimit : 0x110000 ≤ UInt32.size := by decide
    have hinvalid : ¬n.isValidChar := by
      rintro (h | h) <;> omega
    rw [scalar?, if_neg hinvalid]
    rfl

/-- Four digits always fit. -/
theorem HexReader.read_of_four (hlength : digits.length = 4) (h : Denotes digits n) :
    hex.read digits = some n := by
  have hlt := h.lt
  rw [hlength] at hlt
  rw [hex.read_of_denotes h, if_pos (Nat.lt_trans hlt (by decide))]

/-- Four bytes are read as the second half of a surrogate pair only if they are four digits: with a sign
in front of three digits, the number is too small. -/
theorem HexReader.denotes_of_read (h : hex.read digits = some n) (hlength : utf8Length digits = 4)
    (hn : 0xDC00 ≤ n) : digits.length = 4 ∧ Denotes digits n := by
  obtain ⟨sign, number, rfl, hsign, hnumber, rfl⟩ := hex.digits_of_read _ _ h
  have hbytes : utf8Length number = number.length :=
    utf8Length_eq_length fun d hd => utf8Size_of_isHexDigit (hnumber d hd)
  have hlt := hexNumber_lt number
  have hfour : number.length = 4 ∧ sign = [] := by
    rw [utf8Length_append, hbytes] at hlength
    have hsmall : 3 < number.length := by
      refine Nat.lt_of_not_le fun hle => ?_
      have := Nat.lt_of_lt_of_le hlt (Nat.pow_le_pow_right (by decide) hle)
      omega
    have hnone : utf8Length sign = 0 := by omega
    refine ⟨by omega, List.eq_nil_of_length_eq_zero ?_⟩
    have := length_le_utf8Length sign
    omega
  obtain ⟨hfour, rfl⟩ := hfour
  rw [List.nil_append] at *
  refine ⟨hfour, ?_, hnumber, rfl⟩
  rintro rfl
  cases hfour

/-- Looking for the second half of a surrogate pair four bytes on finds what looking for four digits
does. -/
theorem StringPart.low?_eq (cs : List Char) : low? hex cs = lowSurrogate? cs := by
  refine Option.ext fun n => ?_
  rw [lowSurrogate?_eq_some_iff]
  constructor
  · intro h
    unfold low? at h
    split at h
    · next cs =>
      obtain ⟨hfound, hrange⟩ := Option.filter_eq_some_iff.1 h
      simp only [Bool.and_eq_true, decide_eq_true_eq] at hrange
      obtain ⟨⟨digits, rest⟩, hcut, hread⟩ := Option.bind_eq_some_iff.1 hfound
      obtain ⟨rfl, hbytes⟩ := eq_of_cutAt? hcut
      obtain ⟨hlength, hdigits⟩ := hex.denotes_of_read hread hbytes hrange.1
      exact ⟨digits, rest, rfl, hlength, hdigits, hrange⟩
    · cases h
  · rintro ⟨digits, rest, rfl, hlength, hdigits, hrange⟩
    have hcut : cutAt? 4 (digits ++ rest) = some (digits, rest) :=
      cutAt?_eq_some_iff.2 ⟨rfl, by rw [hdigits.utf8Length, hlength]⟩
    rw [low?, hcut, Option.bind_some]
    dsimp only
    rw [hex.read_of_four hlength hdigits]
    exact Option.filter_eq_some_iff.2 ⟨rfl, by simpa using hrange⟩

end Numbers

/-! ### All parts of a string -/

/-- Whether reading parts behind some output, from any window in front of a text, gives what a reader of
texts does: the output and the value, and the offset behind as many characters. -/
def ReadsAll (readAll? : Window → List Char → Option (Option (List Char × Nat)))
    (read : List Char → Option (List Char × Nat)) (cs : List Char) : Prop :=
  ∀ before inside output, readAll? (.around before inside cs) output =
    some ((read cs).map fun (value, size) => (output ++ value,
      utf8Length before + utf8Length inside + utf8Length (cs.take size)))

namespace ReadsAll

variable {readAll? : Window → List Char → Option (Option (List Char × Nat))}
  {read : List Char → Option (List Char × Nat)} {text after meaning : List Char}

/-- One part more is read in front of a text. -/
theorem append (hafter : ReadsAll readAll? read after)
    (hstep : ∀ before inside output, readAll? (.around before inside (text ++ after)) output =
      readAll? (.around (before ++ inside) text after) (output ++ meaning))
    (hread : read (text ++ after) =
      (read after).map fun (value, size) => (meaning ++ value, text.length + size)) :
    ReadsAll readAll? read (text ++ after) := by
  intro before inside output
  rw [hstep, hafter, hread]
  cases read after with
  | none => rfl
  | some found => simp [utf8Length_append, List.take_length_add_append, Nat.add_assoc]

/-- The last part is read. -/
theorem finish (hstep : ∀ before inside output,
      readAll? (.around before inside (text ++ after)) output =
        some (some (output, (Window.around (before ++ inside) text after).stop)))
    (hread : read (text ++ after) = some ([], text.length)) :
    ReadsAll readAll? read (text ++ after) := by
  intro before inside output
  rw [hstep, hread]
  simp [Window.around, utf8Length_append]

theorem ofList {cs : List Char} (h : ReadsAll readAll? read cs) (output : List Char) :
    readAll? (.ofList cs) output =
      some ((read cs).map fun (value, size) => (output ++ value, utf8Length (cs.take size))) := by
  simpa [Window.ofList_eq] using h [] [] output

end ReadsAll

/-! ### Parts of a quoted string -/

namespace StringPart

/-- A run of characters that stand for themselves is one part. -/
theorem scan_run {run after : List Char} (hne : run ≠ []) (hrun : ∀ c ∈ run, isPlain c = true)
    (hafter : ∀ c ∈ after.head?, isPlain c = false) : scan (run ++ after) = (plain, run.length) := by
  have hwhile := takeWhile_append_of_stops hrun hafter
  obtain ⟨c, run, rfl⟩ := List.exists_cons_of_ne_nil hne
  obtain ⟨hquote, hslash, -, -⟩ := isPlain_iff.1 (hrun c List.mem_cons_self)
  rw [List.cons_append] at hwhile ⊢
  rw [scan.eq_5 _ (fun _ h => hquote (List.cons.inj h).1) (fun _ h => hslash (List.cons.inj h).1)
    (fun _ h => hslash (List.cons.inj h).1) (fun _ _ h => hslash (List.cons.inj h).1), hwhile]
  rfl

theorem scan_lineBreak {c : Char} (hc : c = '\n' ∨ c = '\r') (cs : List Char) :
    scan (c :: cs) = (invalid, 1) := by
  rcases hc with rfl | rfl <;> rfl

theorem scan_simple {e : Char} (he : e ≠ 'u') (cs : List Char) :
    scan ('\\' :: e :: cs) = match simpleEscape? e with
      | some meaning => (simple meaning, 2)
      | none => (invalid, 1) :=
  scan.eq_4 e cs (fun _ h => absurd h he) he

theorem scan_fixed {cs : List Char} (hbrace : cs.head? ≠ some '\x7b') :
    scan ('\\' :: 'u' :: cs) = if (fourDigits? cs).isSome then (fixed, 6) else (invalid, 1) :=
  scan.eq_3 cs fun _ h => hbrace (by rw [h]; rfl)

theorem scan_fixed_append {digits : List Char} {n : Nat} (hlength : digits.length = 4)
    (h : Denotes digits n) (after : List Char) :
    scan ('\\' :: 'u' :: digits ++ after) = (fixed, ('\\' :: 'u' :: digits).length) := by
  rw [List.cons_append, List.cons_append, scan_fixed (h.head? after),
    fourDigits?_eq_some_iff.2 ⟨digits, after, rfl, hlength, h⟩]
  simp [hlength]

theorem scan_braced_append {digits : List Char} {n : Nat} (h : Denotes digits n)
    (after : List Char) :
    scan ('\\' :: 'u' :: '\x7b' :: (digits ++ ['\x7d']) ++ after) =
      (braced, ('\\' :: 'u' :: '\x7b' :: (digits ++ ['\x7d'])).length) := by
  have hcs : '\\' :: 'u' :: '\x7b' :: (digits ++ ['\x7d']) ++ after =
      '\\' :: 'u' :: '\x7b' :: (digits ++ '\x7d' :: after) := by simp
  rw [hcs, scan.eq_2, h.takeWhile_append (by decide)]
  simp [h.ne_nil]

section Next

variable (hex : HexReader) (before inside : List Char)

/-- What the second half of a surrogate pair and its first half stand for, or the first number alone. -/
theorem read?_fixed {digits : List Char} {n : Nat} (hlength : digits.length = 4)
    (h : Denotes digits n) (after : List Char) :
    fixed.read? hex (.around before ('\\' :: 'u' :: digits) after) =
      match if 0xD800 ≤ n ∧ n ≤ 0xDBFF then lowSurrogate? after else none with
      | none => some ((scalar? n).map fun c =>
          ([c], .around before ('\\' :: 'u' :: digits) after))
      | some low => (Window.bump? (.around before ('\\' :: 'u' :: digits) after) 6).map fun longer =>
          (scalar? (combineSurrogates n low)).map fun c => ([c], longer) := by
  have hdrop : dropAt? 2 ('\\' :: 'u' :: digits) = some digits :=
    dropAt?_eq_some_iff.2 ⟨['\\', 'u'], rfl, by decide⟩
  simp only [read?, Window.slice?_around, Window.remainder?_around, Option.bind_eq_bind,
    Option.bind_some, hdrop, hex.read_of_four hlength h, low?_eq]
  cases if 0xD800 ≤ n ∧ n ≤ 0xDBFF then lowSurrogate? after else none with
  | none => rfl
  | some low => exact Option.map_eq_bind.symm

theorem read?_braced {digits : List Char} {n : Nat} (h : Denotes digits n) (after : List Char) :
    braced.read? hex (.around before ('\\' :: 'u' :: '\x7b' :: (digits ++ ['\x7d'])) after) =
      some ((scalar? n).map fun c =>
        ([c], .around before ('\\' :: 'u' :: '\x7b' :: (digits ++ ['\x7d'])) after)) := by
  have hslice : slice? 3 (utf8Length ('\\' :: 'u' :: '\x7b' :: (digits ++ ['\x7d'])) - 1)
      ('\\' :: 'u' :: '\x7b' :: (digits ++ ['\x7d'])) = some digits :=
    slice?_eq_some_iff.2 ⟨['\\', 'u', '\x7b'], ['\x7d'], rfl, by decide, by
      have hopen : utf8Length ['\\', 'u', '\x7b'] = 3 := by decide
      have hclose : utf8Length ['\x7d'] = 1 := by decide
      have hall : utf8Length ('\\' :: 'u' :: '\x7b' :: (digits ++ ['\x7d'])) =
          utf8Length (['\\', 'u', '\x7b'] ++ (digits ++ ['\x7d'])) := rfl
      rw [hall, utf8Length_append, utf8Length_append, hopen, hclose]
      omega⟩
  simp only [read?, Window.slice?_around, Option.bind_eq_bind, Option.bind_some, hslice,
    hex.bind_scalar? h]
  rfl

theorem next?_nil : next? hex (.around before inside []) = some none := by
  simp [next?]

/-- Reading the part that is scanned. -/
theorem next?_of_scan {text : List Char} (after : List Char) {part : StringPart} (hne : text ≠ [])
    (h : scan (text ++ after) = (part, text.length)) :
    next? hex (.around before inside (text ++ after)) =
      (part.read? hex (.around (before ++ inside) text after)).map (·.map (part, ·)) := by
  rw [next?, Window.scan?_around before inside after hne h]
  exact Option.map_eq_bind.symm

theorem next?_of_invalid {c : Char} {cs : List Char} (h : scan (c :: cs) = (invalid, 1)) :
    next? hex (.around before inside (c :: cs)) = some none := by
  have hscan : scan ([c] ++ cs) = (invalid, [c].length) := h
  have hnext := next?_of_scan hex before inside cs (List.cons_ne_nil c []) hscan
  exact hnext

theorem next?_quote (cs : List Char) :
    next? hex (.around before inside ('"' :: cs)) =
      some (some (finish, [], .around (before ++ inside) ['"'] cs)) := by
  have hscan : scan (['"'] ++ cs) = (finish, ['"'].length) := rfl
  have hnext := next?_of_scan hex before inside cs (List.cons_ne_nil '"' []) hscan
  exact hnext

/-- Characters that stand for themselves are one part. -/
theorem next?_plain {run after : List Char} (hne : run ≠ []) (hrun : ∀ c ∈ run, isPlain c = true)
    (hafter : ∀ c ∈ after.head?, isPlain c = false) :
    next? hex (.around before inside (run ++ after)) =
      some (some (plain, run, .around (before ++ inside) run after)) := by
  rw [next?_of_scan hex before inside after hne (scan_run hne hrun hafter)]
  simp [read?]

/-- An escape is one part, which stands for the character that the unit does. -/
theorem next?_unit {text : List Char} {c : Char} (h : IsUnit text c)
    (hslash : text.head? = some '\\') (after : List Char) :
    ∃ part, part ≠ finish ∧ next? hex (.around before inside (text ++ after)) =
      some (some (part, [c], .around (before ++ inside) text after)) := by
  cases h with
  | plain hquote hne => exact absurd (Option.some.inj hslash) hne
  | @simple e c h =>
    have hmeaning := simpleEscape?_eq_some_iff.2 h
    have he : e ≠ 'u' := by
      rintro rfl
      cases hmeaning
    have hscan : scan (['\\', e] ++ after) = (simple c, 2) := by
      rw [List.cons_append, List.singleton_append, scan_simple he, hmeaning]
    exact ⟨simple c, nofun, next?_of_scan hex before inside after (List.cons_ne_nil _ _) hscan⟩
  | @fixed digits c hlength h =>
    refine ⟨fixed, nofun, ?_⟩
    rw [next?_of_scan hex before inside after (List.cons_ne_nil _ _) (scan_fixed_append hlength h _),
      read?_fixed hex _ hlength h, if_neg (not_surrogate c), scalar?_toNat]
    rfl
  | @pair digits digits' high low c hlength hlength' hdigits hdigits' hhigh hlow h =>
    -- The part is the first half, which takes the second half from the text behind it.
    have htext : '\\' :: 'u' :: (digits ++ '\\' :: 'u' :: digits') ++ after =
        '\\' :: 'u' :: digits ++ ('\\' :: 'u' :: digits' ++ after) := by simp
    have hinside : '\\' :: 'u' :: digits ++ '\\' :: 'u' :: digits' =
        '\\' :: 'u' :: (digits ++ '\\' :: 'u' :: digits') := rfl
    have hsecond : lowSurrogate? ('\\' :: 'u' :: digits' ++ after) = some low :=
      lowSurrogate?_eq_some_iff.2 ⟨digits', after, rfl, hlength', hdigits', hlow⟩
    have hscalar : scalar? (combineSurrogates high low) = some c := scalar?_eq_some_iff.2 h
    refine ⟨fixed, nofun, ?_⟩
    rw [htext, next?_of_scan hex before inside _ (List.cons_ne_nil _ _)
      (scan_fixed_append hlength hdigits _), read?_fixed hex _ hlength hdigits, if_pos hhigh, hsecond]
    dsimp only
    rw [hdigits'.bump?_around hlength', hinside, hscalar]
    rfl
  | @braced digits c h =>
    have hscan := scan_braced_append h after
    refine ⟨braced, nofun, ?_⟩
    rw [next?_of_scan hex before inside after (List.cons_ne_nil _ _) hscan, read?_braced hex _ h,
      scalar?_toNat]
    rfl

private theorem next?_of_fixedEscape?_eq_none {digits rest : List Char} {n : Nat}
    (hlength : digits.length = 4) (hdigits : Denotes digits n)
    (h : fixedEscape? (digits ++ rest) = none) :
    next? hex (.around before inside ('\\' :: 'u' :: (digits ++ rest))) = some none := by
  have hcs : '\\' :: 'u' :: (digits ++ rest) = '\\' :: 'u' :: digits ++ rest := rfl
  rw [fixedEscape?_append hlength hdigits] at h
  rw [hcs, next?_of_scan hex before inside rest (List.cons_ne_nil _ _)
    (scan_fixed_append hlength hdigits rest), read?_fixed hex _ hlength hdigits]
  by_cases hhigh : 0xD800 ≤ n ∧ n ≤ 0xDBFF
  · rw [if_pos hhigh] at h ⊢
    cases hlow : lowSurrogate? rest with
    | none =>
      -- A first half alone is no character.
      have hscalar : scalar? n = none := Option.eq_none_iff_forall_ne_some.2 fun c hc =>
        not_surrogate c (scalar?_eq_some_iff.1 hc ▸ hhigh)
      simp [hscalar]
    | some low =>
      obtain ⟨digits', rest, rfl, hlength', hdigits', -⟩ := lowSurrogate?_eq_some_iff.1 hlow
      rw [hlow, Option.bind_some, Option.map_eq_none_iff] at h
      dsimp only
      rw [← List.cons_append, ← List.cons_append, hdigits'.bump?_around hlength', h]
      rfl
  · rw [if_neg hhigh] at h ⊢
    rw [Option.map_eq_none_iff] at h
    rw [h]
    rfl

/-- Where no unit starts, no part is read. -/
theorem next?_of_unit?_eq_none {cs : List Char} (hquote : cs.head? ≠ some '"')
    (h : unit? cs = none) : next? hex (.around before inside cs) = some none := by
  unfold unit? at h
  split at h
  · next cs =>
    by_cases hbrace : ((cs.takeWhile isHexDigit).isEmpty ||
        (cs.drop (cs.takeWhile isHexDigit).length).head? != some '\x7d') = true
    · exact next?_of_invalid hex before inside (by rw [scan.eq_2, if_pos hbrace])
    · obtain ⟨digits, n, rest, rfl, hdigits⟩ := exists_denotes_of_brace (Bool.eq_false_iff.2 hbrace)
      rw [bracedEscape?_append hdigits, Option.map_eq_none_iff] at h
      have hcs : '\\' :: 'u' :: '\x7b' :: (digits ++ '\x7d' :: rest) =
          '\\' :: 'u' :: '\x7b' :: (digits ++ ['\x7d']) ++ rest := by simp
      rw [hcs, next?_of_scan hex before inside rest (List.cons_ne_nil _ _)
        (scan_braced_append hdigits rest), read?_braced hex _ hdigits, h]
      rfl
  · next cs hne =>
    have hhead : cs.head? ≠ some '\x7b' := fun he => by
      obtain ⟨cs, rfl⟩ := List.head?_eq_some_iff.1 he
      exact hne _ rfl
    cases hfour : fourDigits? cs with
    | none => exact next?_of_invalid hex before inside (by rw [scan_fixed hhead, hfour]; rfl)
    | some n =>
      obtain ⟨digits, rest, rfl, hlength, hdigits⟩ := fourDigits?_eq_some_iff.1 hfour
      exact next?_of_fixedEscape?_eq_none hex before inside hlength hdigits h
  · next e cs hne he =>
    rw [Option.map_eq_none_iff] at h
    exact next?_of_invalid hex before inside (by rw [scan_simple he, h])
  · next c cs hbrace hfixed hsimple =>
    have hplain : isPlain c = false := Bool.eq_false_iff.2 fun hc => by simp [hc] at h
    rcases isPlain_eq_false_iff.1 hplain with rfl | rfl | hline
    · exact absurd rfl hquote
    · cases cs with
      | nil => exact next?_of_invalid hex before inside (by decide)
      | cons e cs => exact absurd rfl (hsimple e cs rfl)
    · exact next?_of_invalid hex before inside (scan_lineBreak hline cs)
  · exact next?_nil hex before inside

end Next

/-! ### All parts -/

theorem readAll?_eq (hex : HexReader) (window : Window) (output : List Char) :
    readAll? hex window output = match next? hex window with
      | none => none
      | some none => some none
      | some (some (part, meaning, after)) =>
        if part = finish then some (some (output, after.stop))
        else readAll? hex after (output ++ meaning) := by
  rw [readAll?]
  split <;> simp_all

/-- Reading parts gives what reading units does. -/
theorem readsAll (hex : HexReader) (cs : List Char) : ReadsAll (readAll? hex) readQuoted cs := by
  induction hn : cs.length using Nat.strongRecOn generalizing cs with
  | ind n ih =>
    by_cases hquote : cs.head? = some '"'
    · obtain ⟨rest, rfl⟩ := List.head?_eq_some_iff.1 hquote
      have hread : readQuoted (['"'] ++ rest) = some ([], ['"'].length) := readQuoted_quote rest
      rw [← List.singleton_append]
      refine .finish (fun before inside output => ?_) hread
      rw [readAll?_eq, List.singleton_append, next?_quote]
      rfl
    obtain ⟨run, after, rfl, hrun, hafter⟩ := exists_run isPlain cs
    by_cases hne : run = []
    · -- Nothing stands for itself here, so there is an escape or no unit.
      subst hne
      cases hunit : unit? after with
      | none =>
        intro before inside output
        rw [List.nil_append] at hquote ⊢
        rw [readAll?_eq, next?_of_unit?_eq_none hex before inside hquote hunit,
          readQuoted_eq_none hquote hunit]
        rfl
      | some unit =>
        obtain ⟨text, after, rfl, -, h⟩ := isUnit_of_unit? hunit
        have hlt := List.length_pos_iff.2 h.head?.1
        have hslash : text.head? = some '\\' := by
          cases h with
          | plain hne hslash hline hreturn =>
            have hplain := hafter _ rfl
            rw [isPlain_iff.2 ⟨hne, hslash, hline, hreturn⟩] at hplain
            cases hplain
          | _ => rfl
        have hread : readQuoted (text ++ after) = (readQuoted after).map fun (value, size) =>
            ([unit.1] ++ value, text.length + size) := h.readQuoted_append after
        rw [List.nil_append, List.length_append] at hn
        refine (ih after.length (by omega) after rfl).append (fun before inside output => ?_) hread
        obtain ⟨part, hpart, hnext⟩ := next?_unit hex before inside h hslash after
        rw [readAll?_eq, hnext]
        exact if_neg hpart
    · have hlt := List.length_pos_iff.2 hne
      rw [List.length_append] at hn
      refine (ih after.length (by omega) after rfl).append (fun before inside output => ?_)
        (readQuoted_plain_append hrun after)
      rw [readAll?_eq, next?_plain hex before inside hne hrun hafter]
      rfl

end StringPart

/-! ### Quoted strings -/

theorem plainEnd?_append {run : List Char} (h : ∀ c ∈ run, isPlain c = true) (offset : Nat)
    (after : List Char) :
    plainEnd? offset (run ++ after) = plainEnd? (offset + utf8Length run) after := by
  induction run generalizing offset with
  | nil => rfl
  | cons c run ih =>
    obtain ⟨hc, hrun⟩ := List.forall_mem_cons.1 h
    rw [List.cons_append, plainEnd?, if_pos hc, ih hrun, utf8Length_cons, Nat.add_assoc]

section Quoted

variable (hex : HexReader) (before inside : List Char)

theorem readEscaped?_around (output cs : List Char) :
    readEscaped? hex output (.around before inside cs) = some (match readQuoted cs with
      | some (value, size) =>
        (some (output ++ value), .around before (inside ++ cs.take size) (cs.drop size))
      | none => (none, .around before inside cs)) := by
  simp only [readEscaped?, Window.remainder?_around, Option.bind_eq_bind, Option.bind_some,
    (StringPart.readsAll hex cs).ofList]
  cases readQuoted cs <;> simp

/-- Reading a quoted string from a window: its value, and the window behind it; or no value, and the
window in front of the first escape if there is one, and else where it was. -/
theorem readString?_around (cs : List Char) :
    readString? hex (.around before inside cs) = some (match readQuoted cs with
      | some (value, size) => (some value, .around before (inside ++ cs.take size) (cs.drop size))
      | none => (none, .around before (inside ++ cs.take (brokenLength cs - 1))
          (cs.drop (brokenLength cs - 1)))) := by
  obtain ⟨run, after, rfl, hplain, hafter⟩ := exists_run isPlain cs
  have hbroken : brokenLength (run ++ after) =
      if after.head? == some '\\' then 1 + run.length else 1 := by
    simp only [brokenLength, takeWhile_append_of_stops hplain hafter, List.drop_left]
  simp only [readString?, Window.remainder?_around, Option.bind_eq_bind, Option.bind_some,
    plainEnd?_append hplain, readQuoted_plain_append hplain, Nat.zero_add]
  cases after with
  | nil =>
    have hread : readQuoted [] = none := rfl
    rw [hbroken]
    simp [plainEnd?, hread]
  | cons c after =>
    have hslice : slice? 0 (utf8Length run) (run ++ c :: after) = some run :=
      slice?_eq_some_iff.2 ⟨[], c :: after, rfl, rfl, Nat.zero_add _⟩
    have hc := hafter c rfl
    rw [plainEnd?, if_neg (by simp [hc])]
    rcases isPlain_eq_false_iff.1 hc with rfl | rfl | hline
    · have hsize : utf8Length run + 1 = utf8Length (run ++ ['"']) := by
        rw [utf8Length_append]
        rfl
      have hcs : run ++ '"' :: after = run ++ ['"'] ++ after := by simp
      simp only [hslice, Option.bind_some, readQuoted_quote, Option.map_some, hsize]
      rw [hcs, Window.bump?_around]
      simp [List.take_length_add_append]
    · simp only [hslice, Option.bind_some, Window.bump?_around, readEscaped?_around]
      cases readQuoted ('\\' :: after) with
      | none => simp [hbroken]
      | some read => simp [List.take_length_add_append, List.drop_length_add_append]
    · have hread : readQuoted (c :: after) = none := by
        rcases hline with rfl | rfl <;> exact readQuoted_eq_none (by simp) rfl
      rcases hline with rfl | rfl <;> simp [hread, hbroken]

end Quoted

/-! ### Block strings -/

namespace BlockPart

section Step

variable (before inside : List Char) {text after : List Char} (raw : List Char)

/-- A part that stands for itself is put behind the output. -/
theorem readAll?_self {part : BlockPart} (hne : text ≠ [])
    (h : scan (text ++ after) = (part, text.length)) (hfinish : part ≠ finish)
    (hescape : part ≠ escape) :
    readAll? (.around before inside (text ++ after)) raw =
      readAll? (.around (before ++ inside) text after) (raw ++ text) := by
  have hscan := Window.scan?_around before inside after hne h
  rw [readAll?]
  split <;> simp_all

theorem readAll?_escape (hne : text ≠ []) (h : scan (text ++ after) = (escape, text.length)) :
    readAll? (.around before inside (text ++ after)) raw =
      readAll? (.around (before ++ inside) text after) (raw ++ blockQuotes) := by
  have hscan := Window.scan?_around before inside after hne h
  rw [readAll?]
  split <;> simp_all

theorem readAll?_finish (hne : text ≠ []) (h : scan (text ++ after) = (finish, text.length)) :
    readAll? (.around before inside (text ++ after)) raw =
      some (some (raw, (Window.around (before ++ inside) text after).stop)) := by
  have hscan := Window.scan?_around before inside after hne h
  rw [readAll?]
  split <;> simp_all

end Step

/-- Characters other than quotes and backslashes are in the raw text as they are. -/
theorem readBlock_plain_append {run : List Char} (h : ∀ c ∈ run, isPlain c = true)
    (rest : List Char) : readBlock (run ++ rest) =
      (readBlock rest).map fun (raw, size) => (run ++ raw, run.length + size) := by
  induction run with
  | nil => simp
  | cons c run ih =>
    obtain ⟨hc, hrun⟩ := List.forall_mem_cons.1 h
    obtain ⟨hquote, hslash⟩ := isPlain_iff.1 hc
    rw [List.cons_append, readBlock.eq_4 c _ (fun _ h => absurd h hslash) (fun _ h => absurd h hquote),
      ih hrun]
    cases readBlock rest with
    | none => rfl
    | some read => simp [Nat.add_right_comm]

/-- A quote or a backslash is read that starts neither an escape nor the closing quotes. -/
private theorem readsAll_cons {c : Char} {cs : List Char} {part : BlockPart}
    (hcs : ReadsAll readAll? readBlock cs) (hscan : scan (c :: cs) = (part, 1))
    (hfinish : part ≠ finish) (hescape : part ≠ escape)
    (hread : readBlock (c :: cs) = (readBlock cs).map fun (raw, size) => (c :: raw, size + 1)) :
    ReadsAll readAll? readBlock (c :: cs) := by
  have hscan' : scan ([c] ++ cs) = (part, [c].length) := hscan
  have hread' : readBlock ([c] ++ cs) =
      (readBlock cs).map fun (raw, size) => ([c] ++ raw, [c].length + size) := by
    rw [List.singleton_append, hread]
    simp only [Nat.add_comm]
    rfl
  rw [← List.singleton_append]
  exact hcs.append (fun before inside raw =>
    readAll?_self before inside raw (List.cons_ne_nil _ _) hscan' hfinish hescape) hread'

/-- A run of characters other than quotes and backslashes is one part. -/
theorem scan_run {run after : List Char} (hne : run ≠ []) (hrun : ∀ c ∈ run, isPlain c = true)
    (hafter : ∀ c ∈ after.head?, isPlain c = false) : scan (run ++ after) = (plain, run.length) := by
  have hwhile := takeWhile_append_of_stops hrun hafter
  obtain ⟨c, run, rfl⟩ := List.exists_cons_of_ne_nil hne
  obtain ⟨hquote, hslash⟩ := isPlain_iff.1 (hrun c List.mem_cons_self)
  rw [List.cons_append] at hwhile ⊢
  rw [scan.eq_5 _ (fun _ h => hslash (List.cons.inj h).1) (fun _ h => hslash (List.cons.inj h).1)
    (fun _ h => hquote (List.cons.inj h).1) (fun _ h => hquote (List.cons.inj h).1), hwhile]

/-- Reading parts gives what reading characters does. -/
theorem readsAll (cs : List Char) : ReadsAll readAll? readBlock cs := by
  induction hn : cs.length using Nat.strongRecOn generalizing cs with
  | ind n ih =>
    obtain ⟨run, after, rfl, hrun, hafter⟩ := exists_run isPlain cs
    by_cases hne : run = []
    · subst hne
      rw [List.nil_append] at hn ⊢
      have ih' {cs : List Char} (h : cs.length < after.length) : ReadsAll readAll? readBlock cs :=
        ih _ (hn ▸ h) cs rfl
      fun_cases scan after with
      | case1 cs =>
        have hread : readBlock (['\\', '"', '"', '"'] ++ cs) = (readBlock cs).map
            fun (raw, size) => (blockQuotes ++ raw, ['\\', '"', '"', '"'].length + size) := by
          rw [List.cons_append, List.cons_append, List.cons_append, List.singleton_append,
            readBlock.eq_2]
          simp only [Nat.add_comm]
          rfl
        have hcs : ReadsAll readAll? readBlock cs := ih' (by simp only [List.length_cons]; omega)
        exact hcs.append (fun before inside raw =>
          readAll?_escape before inside raw (List.cons_ne_nil _ _) rfl) hread
      | case2 cs h =>
        exact readsAll_cons (ih' (by simp)) (scan.eq_2 cs h) (by decide) (by decide)
          (readBlock.eq_4 _ cs (fun _ _ => h _) nofun)
      | case3 cs =>
        have hread : readBlock (blockQuotes ++ cs) = some ([], blockQuotes.length) :=
          readBlock.eq_3 cs
        exact ReadsAll.finish (fun before inside raw =>
          readAll?_finish before inside raw (List.cons_ne_nil _ _) rfl) hread
      | case4 cs h =>
        exact readsAll_cons (ih' (by simp)) (scan.eq_4 cs h) (by decide) (by decide)
          (readBlock.eq_4 _ cs nofun fun _ _ => h _)
      | case5 _ _ hslash _ hquote =>
        cases hcs : after with
        | nil =>
          intro before inside raw
          rw [readAll?, readBlock]
          split <;> simp_all
        | cons c cs =>
          have hplain := hafter c (by rw [hcs]; rfl)
          rw [isPlain_iff.2 ⟨fun h => hquote cs (by rw [hcs, h]), fun h => hslash cs (by rw [hcs, h])⟩]
            at hplain
          cases hplain
    · have hlt := List.length_pos_iff.2 hne
      rw [List.length_append] at hn
      exact (ih after.length (by omega) after rfl).append (fun before inside raw =>
        readAll?_self before inside raw hne (scan_run hne hrun hafter) (by decide) (by decide))
        (readBlock_plain_append hrun after)

end BlockPart

/-- Reading a block string from a window: its value, and the window behind it; or no value, and the
window where it was. -/
theorem readBlockString?_around (before inside cs : List Char) :
    readBlockString? (.around before inside cs) = some (match readBlock cs with
      | some (raw, size) =>
        (some (dedent raw), .around before (inside ++ cs.take size) (cs.drop size))
      | none => (none, .around before inside cs)) := by
  simp only [readBlockString?, Window.remainder?_around, Option.bind_eq_bind, Option.bind_some,
    (BlockPart.readsAll cs).ofList]
  cases readBlock cs <;> simp

end GraphQLTree.Text
