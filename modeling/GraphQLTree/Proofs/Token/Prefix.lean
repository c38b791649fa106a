import GraphQLTree.Proofs.Text.Units
import GraphQLTree.Proofs.Token.Words

/-!
# The start of a text

What a text starts with is scanned the same way whatever follows, as long as the text goes on with the
same character or with a line break (`Token.scan_again`): a sound token never depends on more. So the
scraps that a text is **cut** into stay the same scraps when it is cut off behind them and goes on
otherwise (`Scrap.Cuts.again`). A number that lacks the digits of its exponent is the exception. It is
a token in front of a sign only.
-/

namespace GraphQLTree

namespace Token

/-! ### One token -/

/-- Whether a text goes on with the same character as another one, or with a line break. -/
def GoesOn (after after' : List Char) : Prop :=
  after'.head? = after.head? ∨ after'.head? = some '\n'

namespace GoesOn

variable {after after' : List Char}

theorem refl (after : List Char) : GoesOn after after :=
  .inl rfl

theorem head? (h : GoesOn after after') {p : Char → Bool} (hp : p '\n' = false)
    (hafter : ∀ c ∈ after.head?, p c = false) : ∀ c ∈ after'.head?, p c = false := by
  intro c hc
  rcases h with h | h
  · exact hafter c (h ▸ hc)
  · obtain rfl := Option.some.inj (h.symm.trans hc)
    exact hp

theorem head?_ne (h : GoesOn after after') {c : Char} (hc : c ≠ '\n') (hafter : after.head? ≠ some c) :
    after'.head? ≠ some c := by
  rcases h with h | h
  · exact h ▸ hafter
  · rw [h]
    exact fun he => hc (Option.some.inj he).symm

theorem apart (h : GoesOn after after') {number : List Char} (hafter : Apart number after) :
    Apart number after' where
  name := h.head? (by decide) hafter.name
  dot := h.head?_ne (by decide) hafter.dot
  sign hmark := by
    have hsign := hafter.sign hmark
    rcases h with h | h
    · rwa [startsSigned, h]
    · rw [startsSigned, h]
      decide

end GoesOn

/-- Whether a token is scanned behind its first character from some characters, in front of every text
that goes on like the one behind them. -/
def ScansAgain (scanner : List Char → Token × Nat) (token : Token) (size : Nat) (cs : List Char) : Prop :=
  ∃ body after, cs = body ++ after ∧ body.length + 1 = size ∧
    ∀ after', GoesOn after after' → scanner (body ++ after') = (token, size)

private theorem scanString_again {cs : List Char} {token : Token} {size : Nat}
    (h : scanString cs = (token, size)) (hsound : token.Sound) :
    ScansAgain scanString token size cs := by
  unfold scanString at h
  split at h
  · next cs =>
    split at h
    · next raw size' hread =>
      obtain ⟨rfl, rfl⟩ := Prod.mk.inj h
      obtain ⟨body, rest, rfl, rfl, -, hbody⟩ := Text.exists_block hread
      exact ⟨'"' :: '"' :: body, rest, rfl, rfl, fun after' _ => by simp [scanString, hbody]⟩
    · obtain ⟨rfl, -⟩ := Prod.mk.inj h
      exact absurd hsound id
  · next hcs =>
    split at h
    · next value size' hread =>
      obtain ⟨rfl, rfl⟩ := Prod.mk.inj h
      obtain ⟨body, after, rfl, rfl, hpos, hbody⟩ := Text.exists_quoted hread
      refine ⟨body, after, rfl, rfl, fun after' hgo => ?_⟩
      have hblock (rest : List Char) : body ++ after' ≠ '"' :: '"' :: rest := by
        intro he
        cases body with
        | nil => cases hpos
        | cons d body =>
          obtain ⟨rfl, htail⟩ := List.cons.inj he
          -- A quote at the start is the closing one.
          have hclose : Text.readQuoted ('"' :: (body ++ after)) = some ([], 1) := rfl
          obtain ⟨-, hone⟩ := Prod.mk.inj (Option.some.inj (hclose.symm.trans hread))
          obtain rfl : body = [] := List.eq_nil_of_length_eq_zero (by simpa using hone)
          refine hgo.head?_ne (by decide) (fun hquote => ?_) (congrArg List.head? htail)
          obtain ⟨after, rfl⟩ := List.head?_eq_some_iff.1 hquote
          exact hcs after rfl
      rw [scanString.eq_2 _ hblock, hbody]
    · obtain ⟨rfl, -⟩ := Prod.mk.inj h
      exact absurd hsound id

/-- A sound number is scanned in front of every text that goes on like the one behind it. -/
private theorem scanNumber_again {c : Char} {cs : List Char} {token : Token} {size : Nat}
    (h : scanNumber (c :: cs) = (token, size)) (hsound : token.Sound) :
    ScansAgain (fun cs => scanNumber (c :: cs)) token size cs := by
  obtain ⟨hnumber, hpos, hle, -⟩ := scanNumber_take h hsound.ne_invalid
  obtain ⟨n, rfl⟩ : ∃ n, size = n + 1 := ⟨size - 1, by omega⟩
  have hlength : (cs.take n).length = n := List.length_take_of_le (by simpa using hle)
  refine ⟨cs.take n, cs.drop n, (List.take_append_drop n cs).symm, by rw [hlength], fun after' hgo => ?_⟩
  rw [List.take_succ_cons] at hnumber
  have hwhole : scanNumber (c :: cs.take n) = (token, n + 1) := by
    have hw : token.IsWholeNumber := by rcases hnumber with rfl | rfl <;> exact hsound
    have hscan := hw.2
    rwa [hnumber.write, List.length_cons, hlength] at hscan
  have happart : Apart (c :: cs.take n) (cs.drop n) := by
    refine apart_of_scanNumber ?_ hsound.ne_invalid ?_
    · rwa [List.cons_append, List.take_append_drop, List.length_cons, hlength]
    · rwa [List.length_cons, hlength]
  have hscan := scanNumber_append (List.cons_ne_nil _ _) (hgo.apart happart)
  rwa [hwhole] at hscan

/-- Characters that are taken while they pass a test are taken in front of every text that goes on like
the one behind them. -/
private theorem takeWhile_again {p : Char → Bool} (hp : p '\n' = false) (cs : List Char) :
    ∃ after, cs = cs.takeWhile p ++ after ∧
      ∀ after', GoesOn after after' → (cs.takeWhile p ++ after').takeWhile p = cs.takeWhile p := by
  obtain ⟨run, after, rfl, hrun, hafter⟩ := Text.exists_run p cs
  rw [Text.takeWhile_append_of_stops hrun hafter]
  exact ⟨after, rfl, fun after' hgo => Text.takeWhile_append_of_stops hrun (hgo.head? hp hafter)⟩

/-- A sound token is scanned in front of every text that goes on like the one behind it. -/
theorem scan_again {c : Char} {cs : List Char} {token : Token} {size : Nat}
    (h : scan c cs = (token, size)) (hsound : token.Sound) : ScansAgain (scan c) token size cs := by
  have hinvalid {size' : Nat} (h : (Token.invalid, size') = (token, size)) : False := by
    obtain ⟨rfl, -⟩ := Prod.mk.inj h
    exact hsound
  cases hpunct : Punctuator.ofChar? c with
  | some p =>
    have hscan (cs : List Char) : scan c cs = (.punct p, 1) := by rw [scan, hpunct]
    obtain ⟨rfl, rfl⟩ := Prod.mk.inj ((hscan cs).symm.trans h)
    exact ⟨[], cs, rfl, rfl, fun after' _ => hscan after'⟩
  | none =>
    by_cases hdot : c = '.'
    · subst hdot
      have hscan (cs : List Char) : scan '.' cs =
          if cs.take 2 == ['.', '.'] then (.punct .ellipsis, 3) else (.invalid, 1) := rfl
      rw [hscan] at h
      split at h
      · next hdots =>
        obtain ⟨rfl, rfl⟩ := Prod.mk.inj h
        refine ⟨['.', '.'], cs.drop 2, ?_, rfl, fun after' _ => rfl⟩
        rw [← eq_of_beq hdots, List.take_append_drop]
      · exact (hinvalid h).elim
    by_cases hhash : c = '#'
    · subst hhash
      have hscan (cs : List Char) : scan '#' cs = (.comment (String.ofList (cs.takeWhile isCommentPart)),
          1 + (cs.takeWhile isCommentPart).length) := rfl
      obtain ⟨rfl, rfl⟩ := Prod.mk.inj ((hscan cs).symm.trans h)
      obtain ⟨after, hcs, htake⟩ := takeWhile_again (p := isCommentPart) (by decide) cs
      exact ⟨_, after, hcs, Nat.add_comm _ _, fun after' hgo => by rw [hscan, htake after' hgo]⟩
    by_cases hquote : c = '"'
    · subst hquote
      exact scanString_again h hsound
    by_cases hnumber : startsNumber c = true
    · rw [scan_number hnumber] at h
      obtain ⟨body, after, hcs, hlength, hscan⟩ := scanNumber_again h hsound
      exact ⟨body, after, hcs, hlength, fun after' hgo =>
        (scan_number hnumber _).trans (hscan after' hgo)⟩
    by_cases hname : isNameStart c = true
    · obtain ⟨rfl, rfl⟩ := Prod.mk.inj ((scan_name hname cs).symm.trans h)
      obtain ⟨after, hcs, htake⟩ := takeWhile_again (p := isNamePart) (by decide) cs
      exact ⟨_, after, hcs, rfl, fun after' hgo => by rw [scan_name hname, htake after' hgo]⟩
    · have hnumber : ¬(c == '-' || isDecimal c) = true := hnumber
      simp only [scan, hpunct, beq_iff_eq, hdot, hhash, hquote, if_neg hnumber, if_neg hname, if_false] at h
      exact (hinvalid h).elim

end Token

/-! ### Scraps -/

theorem Token.GoesOn.append {after after' : List Char} (h : GoesOn after after') (text : List Char) :
    GoesOn (text ++ after) (text ++ after') := by
  cases text with
  | nil => exact h
  | cons c text => exact .inl rfl

namespace Scrap

/-- The first scrap of a text and what follows it are cut from the text. -/
theorem eq_of_next? {cs rest : List Char} {scrap : Scrap} (h : next? cs = some (scrap, rest)) :
    cs = scrap.gap ++ (scrap.text ++ rest) ∧ (∀ c ∈ scrap.gap, Token.isIgnored c = true) ∧
      scrap.text ≠ [] := by
  have hall : ∀ c ∈ cs.takeWhile Token.isIgnored, Token.isIgnored c = true :=
    List.all_eq_true.1 List.all_takeWhile
  have hcs := List.takeWhile_append_dropWhile (p := Token.isIgnored) (l := cs)
  unfold next? at h
  split at h
  · cases h
  · next c l hcl =>
    simp only [Option.some.injEq, Prod.mk.injEq] at h
    obtain ⟨rfl, rfl⟩ := h
    refine ⟨?_, hall, List.cons_ne_nil _ _⟩
    rw [List.cons_append, List.take_append_drop, ← hcl, hcs]

/-- A sound scrap is cut from every text that goes on like the one behind it. -/
theorem next?_again {cs rest : List Char} {scrap : Scrap} (h : next? cs = some (scrap, rest))
    (hsound : scrap.token.Sound) {rest' : List Char} (hgo : Token.GoesOn rest rest') :
    next? (scrap.gap ++ (scrap.text ++ rest')) = some (scrap, rest') := by
  have hgap := (eq_of_next? h).2.1
  have hhead := List.head?_dropWhile_not Token.isIgnored cs
  unfold next? at h
  split at h
  · cases h
  · next c l hcl =>
    simp only [Option.some.injEq, Prod.mk.injEq] at h
    obtain ⟨rfl, rfl⟩ := h
    have hscan : Token.scan c l = ((Token.scan c l).1, (Token.scan c l).2) := rfl
    obtain ⟨body, after, rfl, hsize, hagain⟩ := Token.scan_again hscan hsound
    rw [hcl] at hhead
    rw [← hsize, Nat.add_sub_cancel, List.drop_left] at hgo
    rw [← hsize, Nat.add_sub_cancel, List.take_left]
    refine next?_append hgap (List.cons_ne_nil _ _) (by simpa using hhead) ?_
    rw [List.cons_append, Token.ScansFrom, List.length_cons, hsize]
    exact hagain rest' hgo

/-- The first scrap of a text is cut from it. -/
theorem exists_next?_of_scanAll {cs : List Char} {scrap : Scrap} {later : List Scrap}
    (h : scanAll cs = scrap :: later) : ∃ rest, next? cs = some (scrap, rest) ∧ scanAll rest = later := by
  cases hnext : next? cs with
  | none => rw [scanAll_of_none hnext] at h; cases h
  | some next =>
    rw [scanAll_of_some hnext] at h
    obtain ⟨rfl, hlater⟩ := List.cons.inj h
    exact ⟨next.2, rfl, hlater⟩

/-- The characters that scraps are cut from. -/
def flat (scraps : List Scrap) : List Char :=
  scraps.flatMap fun scrap => scrap.gap ++ scrap.text

/-- Whether a text is cut into some scraps and what is behind them. -/
inductive Cuts : List Char → List Scrap → List Char → Prop
  | nil (cs : List Char) : Cuts cs [] cs
  | cons {cs later rest : List Char} {scrap : Scrap} {scraps : List Scrap}
    (h : next? cs = some (scrap, later)) (htail : Cuts later scraps rest) :
    Cuts cs (scrap :: scraps) rest

namespace Cuts

variable {cs rest : List Char} {scraps : List Scrap}

/-- Scanning goes on behind the scraps. -/
theorem scanAll_eq (h : Cuts cs scraps rest) : scanAll cs = scraps ++ scanAll rest := by
  induction h with
  | nil cs => rfl
  | cons h _ ih => rw [scanAll_of_some h, ih, List.cons_append]

theorem eq_flat (h : Cuts cs scraps rest) : cs = flat scraps ++ rest := by
  induction h with
  | nil cs => rfl
  | cons h _ ih =>
    rw [(eq_of_next? h).1, ih]
    simp [flat]

/-- Sound scraps are cut from every text that goes on like the one behind them. -/
theorem again (h : Cuts cs scraps rest) (hsound : ∀ scrap ∈ scraps, scrap.token.Sound)
    {rest' : List Char} (hgo : Token.GoesOn rest rest') : Cuts (flat scraps ++ rest') scraps rest' := by
  induction h with
  | nil cs => exact .nil rest'
  | @cons cs later rest scrap scraps h htail ih =>
    obtain ⟨hscrap, hscraps⟩ := List.forall_mem_cons.1 hsound
    have htail' := ih hscraps hgo
    rw [htail.eq_flat] at h
    have hnext := next?_again h hscrap (hgo.append (flat scraps))
    refine .cons ?_ htail'
    simpa [flat] using hnext

/-- Every beginning of the scraps of a text is cut from it. -/
theorem exists_of_scanAll {later : List Scrap} (h : scanAll cs = scraps ++ later) :
    ∃ rest, Cuts cs scraps rest ∧ scanAll rest = later := by
  induction scraps generalizing cs with
  | nil => exact ⟨cs, .nil cs, h⟩
  | cons scrap scraps ih =>
    obtain ⟨rest, hnext, htail⟩ := exists_next?_of_scanAll h
    obtain ⟨rest', hcuts, hlater⟩ := ih htail
    exact ⟨rest', .cons hnext hcuts, hlater⟩

end Cuts

/-- A text without scraps is ignored. -/
theorem isIgnored_of_scanAll {cs : List Char} (h : scanAll cs = []) :
    ∀ c ∈ cs, Token.isIgnored c = true := by
  cases hnext : next? cs with
  | none =>
    unfold next? at hnext
    split at hnext
    · next hdrop =>
      rw [← List.takeWhile_append_dropWhile (p := Token.isIgnored) (l := cs), hdrop, List.append_nil]
      exact List.all_eq_true.1 List.all_takeWhile
    · cases hnext
  | some next => rw [scanAll_of_some hnext] at h; cases h

/-- A scrap with more ignored characters in front of it. -/
def pad (gap : List Char) (scrap : Scrap) : Scrap :=
  { scrap with gap := gap ++ scrap.gap }

/-- Ignored characters in front of a text are in front of its first scrap. -/
theorem scanAll_append {gap : List Char} (hgap : ∀ c ∈ gap, Token.isIgnored c = true)
    (cs : List Char) : scanAll (gap ++ cs) = (scanAll cs).modifyHead (pad gap) := by
  have hdrop : (gap ++ cs).dropWhile Token.isIgnored = cs.dropWhile Token.isIgnored :=
    List.dropWhile_append_of_pos hgap
  cases hnext : next? cs with
  | none =>
    have hnone : next? (gap ++ cs) = none := by
      unfold next? at hnext ⊢
      rw [hdrop]
      split at hnext
      · rfl
      · cases hnext
    rw [scanAll_of_none hnext, scanAll_of_none hnone, List.modifyHead_nil]
  | some next =>
    obtain ⟨scrap, rest⟩ := next
    have hsome : next? (gap ++ cs) = some (scrap.pad gap, rest) := by
      unfold next? at hnext ⊢
      rw [hdrop, List.takeWhile_append_of_pos hgap]
      split at hnext
      · cases hnext
      · simp only [Option.some.injEq, Prod.mk.injEq] at hnext
        obtain ⟨rfl, rfl⟩ := hnext
        rfl
    rw [scanAll_of_some hnext, scanAll_of_some hsome, List.modifyHead_cons]

theorem map_token_modifyHead (gap : List Char) (scraps : List Scrap) :
    (scraps.modifyHead (pad gap)).map token = scraps.map token := by
  cases scraps <;> rfl

/-- Ignored characters in front of a text change none of its tokens. -/
theorem map_token_scanAll_append {gap : List Char} (hgap : ∀ c ∈ gap, Token.isIgnored c = true)
    (cs : List Char) : (scanAll (gap ++ cs)).map token = (scanAll cs).map token := by
  rw [scanAll_append hgap, map_token_modifyHead]

/-- Behind sound scraps, and ignored characters, a text may be cut off and go on behind a line break. -/
theorem Cuts.scanAll_lineFeed {cs gap more : List Char} {scraps : List Scrap}
    (h : Cuts cs scraps (gap ++ more)) (hsound : ∀ scrap ∈ scraps, scrap.token.Sound)
    (hgap : ∀ c ∈ gap, Token.isIgnored c = true) (text : List Char) :
    scanAll (flat scraps ++ (gap ++ '\n' :: text)) =
      scraps ++ (scanAll text).modifyHead (pad (gap ++ ['\n'])) := by
  have hgo : Token.GoesOn more ('\n' :: text) := .inr rfl
  have hbreak : ∀ c ∈ gap ++ ['\n'], Token.isIgnored c = true :=
    List.forall_mem_append.2 ⟨hgap, List.forall_mem_singleton.2 (by decide)⟩
  rw [(h.again hsound (hgo.append gap)).scanAll_eq, ← scanAll_append hbreak, List.append_assoc,
    List.singleton_append]

end Scrap

end GraphQLTree
