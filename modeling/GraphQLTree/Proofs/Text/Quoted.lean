import GraphQLTree.Text.Quoted

/-!
# Quoted strings read back

Every character is written as one **unit** that reads as that character again, whatever follows it
(`unit?_escapeChar`), and no unit starts with a quote, so the first bare quote is the closing one.
Main statement: reading what `quote` writes gives the text back and takes exactly the written
characters (`readQuoted_escape`).
-/

namespace GraphQLTree.Text

/-! ### Runs -/

section Run

variable {α : Type} {p : α → Bool}

theorem takeWhile_append_of_stops {cs after : List α} (h : ∀ c ∈ cs, p c = true)
    (hstop : ∀ c ∈ after.head?, p c = false) : (cs ++ after).takeWhile p = cs := by
  rw [List.takeWhile_append_of_pos h]
  cases after with
  | nil => simp
  | cons c after => simp [hstop c rfl]

/-- A text starts with a run of characters that pass a test, which is as long as it can be. -/
theorem exists_run (p : α → Bool) (cs : List α) :
    ∃ run after, cs = run ++ after ∧ (∀ c ∈ run, p c = true) ∧ ∀ c ∈ after.head?, p c = false := by
  refine ⟨cs.takeWhile p, cs.dropWhile p, List.takeWhile_append_dropWhile.symm,
    List.all_eq_true.1 List.all_takeWhile, fun c hc => ?_⟩
  have hhead := List.head?_dropWhile_not p cs
  rwa [Option.mem_def.1 hc] at hhead

end Run

/-! ### One unit -/

theorem hexDigit?_hexChar : ∀ n < 16, hexDigit? (hexChar n) = some n := by decide

theorem isHexDigit_hexChar {n : Nat} (h : n < 16) : isHexDigit (hexChar n) = true := by
  rw [isHexDigit, hexDigit?_hexChar n h]
  rfl

theorem scalar?_toNat (c : Char) : scalar? c.toNat = some c := by
  rw [scalar?, if_pos (show c.toNat.isValidChar from c.valid), Char.ofNat_toNat]

/-- The fixed escape that a control character is written as. -/
private theorem fixedEscape?_control {c : Char} (h : c.toNat < 0x20) (rest : List Char) :
    fixedEscape? ('0' :: '0' :: hexChar (c.toNat / 16) :: hexChar (c.toNat % 16) :: rest) =
      some (c, 6) := by
  have hhigh : c.toNat / 16 < 16 := by omega
  have hlow : c.toNat % 16 < 16 := by omega
  have hcode : hexNumber ['0', '0', hexChar (c.toNat / 16), hexChar (c.toNat % 16)] = c.toNat := by
    simp only [hexNumber, List.foldl_cons, List.foldl_nil, hexDigit?_hexChar _ hhigh,
      hexDigit?_hexChar _ hlow, show hexDigit? '0' = some 0 by decide, Option.getD_some]
    omega
  have hfour : fourDigits? ('0' :: '0' :: hexChar (c.toNat / 16) :: hexChar (c.toNat % 16) :: rest)
      = some c.toNat := by
    rw [fourDigits?, hcode, if_pos]
    simp [isHexDigit_hexChar hhigh, isHexDigit_hexChar hlow, show isHexDigit '0' = true by decide]
  simp only [fixedEscape?, hfour, Option.bind_eq_bind, Option.bind_some]
  rw [if_neg (by omega), scalar?_toNat]
  rfl

/-- A plain character is a unit by itself. -/
theorem unit?_cons_of_ne {c : Char} (hs : c ≠ '\\') (rest : List Char) :
    unit? (c :: rest) = if isPlain c then some (c, 1) else none := by
  unfold unit?
  split
  · next h => injection h with h; exact absurd h hs
  · next h => injection h with h; exact absurd h hs
  · next h => injection h with h; exact absurd h hs
  · next h => injection h with h h'; rw [h]
  · next h => cases h

/-- A character reads back from its unit, whatever follows. -/
theorem unit?_escapeChar (c : Char) (rest : List Char) :
    unit? (escapeChar c ++ rest) = some (c, (escapeChar c).length) := by
  unfold escapeChar
  split
  case h_8 hquote hslash _ _ hline hreturn _ =>
    split
    · next h => exact fixedEscape?_control h rest
    · rw [List.singleton_append, unit?_cons_of_ne hslash, if_pos]
      · rfl
      · simpa [isPlain] using ⟨⟨⟨hquote, hslash⟩, hline⟩, hreturn⟩
  all_goals rfl

theorem escapeChar_ne_nil (c : Char) : escapeChar c ≠ [] := by
  intro h
  have := unit?_escapeChar c []
  rw [h] at this
  cases this

/-- No unit starts with a quote. -/
theorem head?_escapeChar (c : Char) : (escapeChar c).head? ≠ some '"' := by
  unfold escapeChar
  split
  case h_8 hquote _ _ _ _ _ _ =>
    split
    · simp
    · simpa using hquote
  all_goals simp

/-! ### Whole strings -/

/-- Reading units up to a quote, when each character has its unit. -/
theorem readUnits_escape (cs rest : List Char) {n : Nat} (h : cs.length ≤ n) :
    readUnits n (cs.flatMap escapeChar ++ '"' :: rest) =
      some (cs, (cs.flatMap escapeChar).length + 1) := by
  induction cs generalizing n with
  | nil => cases n <;> rfl
  | cons c cs ih =>
    obtain ⟨n, rfl⟩ : ∃ m, n = m + 1 := ⟨n - 1, by simp at h; omega⟩
    have hhead : ((c :: cs).flatMap escapeChar ++ '"' :: rest).head? ≠ some '"' := by
      have hne := escapeChar_ne_nil c
      have hhead := head?_escapeChar c
      cases hc : escapeChar c with
      | nil => exact absurd hc hne
      | cons d ds => simpa [hc] using hhead
    rw [readUnits.eq_3 _ _ (fun _ hcs => hhead (by rw [hcs]; rfl)), List.flatMap_cons,
      List.append_assoc, unit?_escapeChar]
    simp only [Option.bind_eq_bind, Option.bind_some, List.drop_left]
    rw [ih (by simpa using h)]
    simp [Nat.add_assoc]

theorem length_le_length_escape (cs : List Char) : cs.length ≤ (cs.flatMap escapeChar).length := by
  induction cs with
  | nil => exact Nat.le_refl 0
  | cons c cs ih =>
    have hc := List.length_pos_iff.mpr (escapeChar_ne_nil c)
    simp only [List.length_cons, List.flatMap_cons, List.length_append]
    omega

/-- A quoted text reads back, and takes its units and the closing quote. -/
theorem readQuoted_escape (cs rest : List Char) :
    readQuoted (cs.flatMap escapeChar ++ '"' :: rest) =
      some (cs, (cs.flatMap escapeChar).length + 1) := by
  refine readUnits_escape cs rest ?_
  have h := length_le_length_escape cs
  simp only [List.length_append]
  omega

end GraphQLTree.Text
