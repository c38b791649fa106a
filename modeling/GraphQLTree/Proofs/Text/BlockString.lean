import GraphQLTree.Proofs.Text.Dedent

/-!
# Block strings read back

A block string is written as its value, with three quotes in a row escaped, and with a line break
at either end where the value needs one. Reading takes the escapes away again
(`readBlock_writtenRaw`), and what is left is a raw text whose value is the one that was written
(`dedent_writtenRaw`), provided that it is the value of some raw text. Such values are described by
their lines: the first and the last have more than indentation, and unless there is one line only,
some line has no indentation at all.
-/

namespace GraphQLTree.Text

/-! ### Reading escapes -/

/-- How many quotes a text starts with. -/
private def quotesAhead (cs : List Char) : Nat :=
  (cs.takeWhile (· == '"')).length

private theorem quotesAhead_quote (cs : List Char) :
    quotesAhead ('"' :: cs) = quotesAhead cs + 1 := by
  simp [quotesAhead]

private theorem quotesAhead_of_head?_ne {cs : List Char} (h : cs.head? ≠ some '"') :
    quotesAhead cs = 0 := by
  cases cs with
  | nil => rfl
  | cons c cs =>
    have hc : c ≠ '"' := by simpa using h
    simp [quotesAhead, hc]

private theorem eq_quotes_append {cs : List Char} (h : 2 ≤ quotesAhead cs) :
    ∃ rest, cs = '"' :: '"' :: rest := by
  match cs with
  | '"' :: '"' :: rest => exact ⟨rest, rfl⟩
  | [] => simp [quotesAhead] at h
  | [c] =>
    have := (List.takeWhile_prefix (· == '"') (l := [c])).length_le
    simp only [quotesAhead, List.length_singleton] at h this
    omega
  | c :: d :: rest =>
    by_cases hc : c = '"'
    · by_cases hd : d = '"'
      · exact ⟨rest, by rw [hc, hd]⟩
      · rw [hc, quotesAhead_quote, quotesAhead_of_head?_ne (by simpa using hd)] at h
        omega
    · rw [quotesAhead_of_head?_ne (by simpa using hc)] at h
      omega

/-- Escaping leaves at most two quotes at the start, and adds none. -/
private theorem quotesAhead_escapeBlock (cs : List Char) :
    quotesAhead (escapeBlock cs) ≤ 2 ∧ quotesAhead (escapeBlock cs) ≤ quotesAhead cs := by
  fun_induction escapeBlock cs with
  | case1 cs ih => rw [quotesAhead_of_head?_ne (by simp)]; omega
  | case2 c cs hc ih =>
    by_cases hq : c = '"'
    · subst hq
      simp only [quotesAhead_quote]
      have h : ¬2 ≤ quotesAhead cs := fun h2 => by
        obtain ⟨rest, rfl⟩ := eq_quotes_append h2
        exact hc rest rfl rfl
      omega
    · rw [quotesAhead_of_head?_ne (by simpa using hq)]
      omega
  | case3 => simp [quotesAhead]

private theorem quotesAhead_append {a b : List Char}
    (h : (a.getLast?.all (· == '"')) = true → b.head? ≠ some '"') :
    quotesAhead (a ++ b) = quotesAhead a := by
  induction a with
  | nil => exact quotesAhead_of_head?_ne (h rfl)
  | cons c a ih =>
    by_cases hc : c = '"'
    · subst hc
      rw [List.cons_append, quotesAhead_quote, quotesAhead_quote, ih]
      intro ha
      refine h ?_
      cases a with
      | nil => rfl
      | cons d a => simpa [List.getLast?_cons_cons] using ha
    · rw [quotesAhead_of_head?_ne (by simpa using hc), quotesAhead_of_head?_ne (by simpa using hc)]

/-- A character that starts neither an escape nor the closing quotes is read as itself. -/
private theorem readBlock_cons {c : Char} {cs : List Char}
    (hslash : c = '\\' → quotesAhead cs ≤ 2) (hquote : c = '"' → quotesAhead cs ≤ 1) :
    readBlock (c :: cs) = (readBlock cs).map fun (raw, size) => (c :: raw, size + 1) := by
  rw [readBlock.eq_def]
  split
  · next h => cases h
  · next h =>
    injection h with hc hcs
    have := hslash hc
    rw [hcs] at this
    simp only [quotesAhead_quote] at this
    omega
  · next h =>
    injection h with hc hcs
    have := hquote hc
    rw [hcs] at this
    simp only [quotesAhead_quote] at this
    omega
  · next h => injection h with hc hcs; rw [hc, hcs]

private theorem endsOpen_cons {c : Char} {cs : List Char} (h : endsOpen cs = true) :
    endsOpen (c :: cs) = true := by
  cases cs with
  | nil => cases h
  | cons d cs => simpa only [endsOpen, List.getLast?_cons_cons] using h

/-- An escaped text reads back in front of any text that its last character doesn't run into. -/
theorem readBlock_escapeBlock (cs : List Char) {rest : List Char}
    (h : endsOpen (escapeBlock cs) = true → rest.head? ≠ some '"') :
    readBlock (escapeBlock cs ++ rest) =
      (readBlock rest).map fun (raw, size) => (cs ++ raw, (escapeBlock cs).length + size) := by
  fun_induction escapeBlock cs with
  -- Three quotes are escaped, and read as such.
  | case1 cs ih =>
    have ih := ih fun ho => h (endsOpen_cons (endsOpen_cons (endsOpen_cons (endsOpen_cons ho))))
    simp only [List.cons_append, readBlock, ih, Option.map_map]
    congr 1
    funext ⟨raw, size⟩
    simp [Nat.add_right_comm]
  | case2 c cs hc ih =>
    -- The quotes that a character could run into are those of the escaped text, which are too few
    -- to be an escape or the closing quotes.
    have happend (hopen : c = '"' ∨ c = '\\') :
        quotesAhead (escapeBlock cs ++ rest) = quotesAhead (escapeBlock cs) := by
      refine quotesAhead_append fun hlast => h ?_
      cases hcs : escapeBlock cs with
      | nil => rcases hopen with rfl | rfl <;> rfl
      | cons d ds =>
        rw [hcs, List.getLast?_eq_some_getLast (by simp)] at hlast
        simp only [Option.all_some, beq_iff_eq] at hlast
        simp only [endsOpen, List.getLast?_cons_cons, List.getLast?_eq_some_getLast
          (show d :: ds ≠ [] by simp), hlast]
    rw [List.cons_append, readBlock_cons]
    · rw [ih fun ho => h (endsOpen_cons ho), Option.map_map]
      congr 1
      funext ⟨raw, size⟩
      simp [Nat.add_right_comm]
    · intro hs
      rw [happend (.inr hs)]
      exact (quotesAhead_escapeBlock cs).1
    · intro hq
      rw [happend (.inl hq)]
      have hle := (quotesAhead_escapeBlock cs).2
      have h2 : ¬2 ≤ quotesAhead cs := fun h2 => by
        obtain ⟨tail, rfl⟩ := eq_quotes_append h2
        exact hc tail hq rfl
      omega
  | case3 =>
    simp

private theorem readBlock_lineFeed (cs : List Char) :
    readBlock ('\n' :: cs) = (readBlock cs).map fun (raw, size) => ('\n' :: raw, size + 1) :=
  readBlock_cons (by simp) (by simp)

private theorem readBlock_quotes (rest : List Char) :
    readBlock (blockQuotes ++ rest) = some ([], 3) := by
  simp [blockQuotes, readBlock]

/-- A written block string reads as the raw text it was written for. -/
theorem readBlock_writtenRaw (value rest : List Char) :
    ∃ body, blockQuote value = blockQuotes ++ body ∧
      readBlock (body ++ rest) = some (writtenRaw value, body.length) := by
  refine ⟨_, by rw [blockQuote, List.append_assoc, List.append_assoc, List.append_assoc], ?_⟩
  have hbreak : readBlock (escapeBlock value ++ ('\n' :: (blockQuotes ++ rest))) =
      some (value ++ ['\n'], (escapeBlock value).length + 4) := by
    rw [readBlock_escapeBlock value (by simp), readBlock_lineFeed, readBlock_quotes]
    rfl
  simp only [blockQuotes, List.cons_append, List.nil_append] at hbreak
  cases hown : needsOwnLine value with
  | true =>
    simp [writtenRaw, hown, readBlock_lineFeed, hbreak, blockQuotes]
  | false =>
    cases hopen : endsOpen (escapeBlock value) with
    | true => simp [writtenRaw, hown, hopen, hbreak, blockQuotes]
    | false =>
      have hplain : readBlock (escapeBlock value ++ (blockQuotes ++ rest)) =
          some (value, (escapeBlock value).length + 3) := by
        rw [readBlock_escapeBlock value (by simp [hopen]), readBlock_quotes]
        simp
      simpa [writtenRaw, hown, hopen, blockQuotes] using hplain

/-! ### Reading up to the closing quotes -/

/-- A block string is read from its own characters alone. -/
theorem exists_block {cs raw : List Char} {size : Nat} (h : readBlock cs = some (raw, size)) :
    ∃ body rest, cs = body ++ rest ∧ body.length = size ∧ 3 ≤ size ∧
      ∀ after, readBlock (body ++ after) = some (raw, size) := by
  fun_induction readBlock cs generalizing raw size with
  | case1 => cases h
  | case2 cs ih =>
    obtain ⟨⟨raw', size'⟩, hread, he⟩ := Option.map_eq_some_iff.1 h
    obtain ⟨rfl, rfl⟩ := Prod.mk.inj he
    obtain ⟨body, rest, rfl, rfl, hle, hbody⟩ := ih hread
    exact ⟨'\\' :: '"' :: '"' :: '"' :: body, rest, rfl, rfl, by simp, fun after => by
      simp [readBlock, hbody]⟩
  | case3 rest =>
    obtain ⟨rfl, rfl⟩ := Prod.mk.inj (Option.some.inj h)
    exact ⟨['"', '"', '"'], rest, rfl, rfl, by simp, fun after => by simp [readBlock]⟩
  | case4 c cs hescape hclose ih =>
    obtain ⟨⟨raw', size'⟩, hread, he⟩ := Option.map_eq_some_iff.1 h
    obtain ⟨rfl, rfl⟩ := Prod.mk.inj he
    obtain ⟨body, rest, rfl, rfl, hle, hbody⟩ := ih hread
    refine ⟨c :: body, rest, rfl, rfl, by simp; omega, fun after => ?_⟩
    -- An escape or the closing quotes would be made of the first three characters.
    obtain ⟨x, y, z, body, rfl⟩ : ∃ x y z body', body = x :: y :: z :: body' := by
      match body, hle with
      | x :: y :: z :: body', _ => exact ⟨x, y, z, body', rfl⟩
    rw [List.cons_append, readBlock.eq_4, hbody]
    · rfl
    · rintro _ rfl he
      obtain ⟨rfl, rfl, rfl, -⟩ : x = '"' ∧ y = '"' ∧ z = '"' ∧ _ := by simpa using he
      exact hescape _ rfl rfl
    · rintro _ rfl he
      obtain ⟨rfl, rfl, -⟩ : x = '"' ∧ y = '"' ∧ _ := by simpa using he
      exact hclose _ rfl rfl

end GraphQLTree.Text
