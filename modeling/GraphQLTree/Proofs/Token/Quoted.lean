import GraphQLTree.Proofs.Text.Parts
import GraphQLTree.Proofs.Token.BlockString

/-!
# Quoted strings as tokens

Behind an opening quote, the grammar of quoted strings is what is accepted and nothing else is, whether
the string is read in units or in parts, and whether or not what is in front of its first escape is
sliced from the text (`readString_isQuoted`). What is written of a value between quotes is one token, the
value itself (`tokenize_quote`).
-/

namespace GraphQLTree

namespace Text

/-- The start of a text up to an offset is a quoted string if and only if one is read that ends there. -/
theorem exists_slice?_isQuoted_iff {cs value : List Char} {size : Nat} :
    (∃ body, slice? 0 size cs = some body ∧ IsQuoted body value) ↔
      ∃ n, readQuoted cs = some (value, n) ∧ utf8Length (cs.take n) = size := by
  constructor
  · rintro ⟨body, hslice, hbody⟩
    obtain ⟨before, after, rfl, hbefore, hsize⟩ := slice?_eq_some_iff.1 hslice
    obtain rfl : before = [] := by
      have := length_le_utf8Length before
      exact List.eq_nil_of_length_eq_zero (by omega)
    refine ⟨body.length, hbody.readQuoted_append after, ?_⟩
    rw [List.nil_append, List.take_left, ← hsize, Nat.zero_add]
  · rintro ⟨n, hread, rfl⟩
    obtain ⟨body, after, rfl, rfl, hbody⟩ := isQuoted_of_readQuoted hread
    rw [List.take_left]
    exact ⟨body, slice?_eq_some_iff.2 ⟨[], after, rfl, rfl, Nat.zero_add _⟩, hbody⟩

end Text

namespace Token

/-- Behind a quote that doesn't open a block string, a quoted string is read. -/
theorem scan_quote_of_not_block {cs : List Char} (hblock : ¬['"', '"'] <+: cs) :
    scan '"' cs = match Text.readQuoted cs with
      | some (value, size) => (.string (String.ofList value), size + 1)
      | none => (.invalid, Text.brokenLength cs) :=
  scanString.eq_2 cs fun rest h => hblock ⟨rest, h.symm⟩

/-- A string token is scanned if and only if its characters are a quoted string. -/
theorem scan_quote_eq_string_iff {body after value : List Char}
    (hblock : ¬['"', '"'] <+: body ++ after) :
    scan '"' (body ++ after) = (.string (String.ofList value), body.length + 1) ↔
      Text.IsQuoted body value := by
  rw [scan_quote_of_not_block hblock]
  constructor
  · intro h
    cases hread : Text.readQuoted (body ++ after) with
    | none => rw [hread] at h; cases (Prod.mk.inj h).1
    | some read =>
      rw [hread] at h
      obtain ⟨body', after', hcs, hlength, hbody⟩ := Text.isQuoted_of_readQuoted hread
      obtain ⟨hvalue, hsize⟩ := Prod.mk.inj h
      obtain ⟨rfl, -⟩ := List.append_inj hcs (by omega)
      rwa [← String.ofList_injective (Token.string.inj hvalue)]
  · intro h
    rw [h.readQuoted_append]

end Token

open Text

/-- Behind a quote that doesn't open a block string, a string with a value is read up to an offset if and
only if the text up to there is a quoted string with that value, and in every other case no string is
read. Reading in parts from the start, instead of from the first escape, makes no difference. -/
theorem readString_isQuoted (hex : HexReader) (before rest : List Char)
    (hblock : ¬['"', '"'] <+: rest) :
    (∀ value size, readString? hex (.around before ['"'] rest) = some (some value,
        ⟨before ++ '"' :: rest, utf8Length before, utf8Length before + 1 + size⟩) ↔
      ∃ body, slice? 0 size rest = some body ∧ IsQuoted body value) ∧
    ((∀ size body value, slice? 0 size rest = some body → ¬IsQuoted body value) →
      (∃ window, readString? hex (.around before ['"'] rest) = some (none, window)) ∧
        (Token.scan '"' rest).1 = .invalid) ∧
    ((readEscaped? hex [] (.around before ['"'] rest)).map Prod.fst =
        (readString? hex (.around before ['"'] rest)).map Prod.fst ∧
      ∀ value window, readEscaped? hex [] (.around before ['"'] rest) = some (some value, window) ↔
        readString? hex (.around before ['"'] rest) = some (some value, window)) ∧
    ∀ body after value, rest = body ++ after →
      (Token.scan '"' rest = (.string (String.ofList value), body.length + 1) ↔
        IsQuoted body value) := by
  have hwindow (n : Nat) : Window.around before ('"' :: rest.take n) (rest.drop n) =
      ⟨before ++ '"' :: rest, utf8Length before,
        utf8Length before + 1 + utf8Length (rest.take n)⟩ := by
    rw [Window.around, utf8Length_cons, ← Nat.add_assoc, List.cons_append, List.take_append_drop]
    rfl
  rw [readString?_around, readEscaped?_around]
  refine ⟨fun value size => ?_, fun hnone => ?_, ?_, ?_⟩
  · rw [exists_slice?_isQuoted_iff]
    cases hread : readQuoted rest with
    | none => simp
    | some read =>
      simp only [Option.some.injEq, Prod.mk.injEq, List.singleton_append, hwindow, Window.mk.injEq,
        true_and, Nat.add_left_cancel_iff]
      constructor
      · rintro ⟨rfl, hsize⟩
        exact ⟨read.2, rfl, hsize⟩
      · rintro ⟨n, rfl, hsize⟩
        exact ⟨rfl, hsize⟩
  · have hread : readQuoted rest = none := Option.eq_none_iff_forall_ne_some.2 fun read hread => by
      obtain ⟨body, hslice, hbody⟩ := exists_slice?_isQuoted_iff.2 ⟨read.2, hread, rfl⟩
      exact hnone _ body read.1 hslice hbody
    rw [Token.scan_quote_of_not_block hblock, hread]
    exact ⟨⟨_, rfl⟩, rfl⟩
  · cases readQuoted rest <;> simp
  · rintro body after value rfl
    exact Token.scan_quote_eq_string_iff hblock

/-- A surrogate pair behind a character of two bytes: the value has three characters, and its text ends
18 bytes behind the quote. -/
theorem readString_isQuoted_pair :
    readString? .unsigned (.around ['('] ['"'] "aé\\uD83D\\uDE00\")".toList) =
        some (some "aé😀".toList, ⟨"(\"aé\\uD83D\\uDE00\")".toList, 1, 18⟩) ∧
      IsQuoted "aé\\uD83D\\uDE00\"".toList "aé😀".toList := by
  have hblock : ¬['"', '"'] <+: "aé\\uD83D\\uDE00\")".toList := by decide
  obtain ⟨hread, -, -, hscan⟩ := readString_isQuoted .unsigned ['('] _ hblock
  have hbody : IsQuoted "aé\\uD83D\\uDE00\"".toList "aé😀".toList :=
    (hscan _ [')'] _ (by decide)).1 (by decide)
  exact ⟨(hread _ 16).2 ⟨_, by decide, hbody⟩, hbody⟩

/-! ### Written strings -/

namespace Text

/-- No control character is written. -/
theorem le_toNat_of_mem_quote {value : List Char} : ∀ c ∈ quote value, 0x20 ≤ c.toNat := by
  have hdigit : ∀ n < 16, 0x20 ≤ (hexChar n).toNat := by decide
  have hall {cs : List Char} (h : cs.all (0x20 ≤ ·.toNat) = true) : ∀ c ∈ cs, 0x20 ≤ c.toNat :=
    fun c hc => of_decide_eq_true (List.all_eq_true.1 h c hc)
  have hescape (c : Char) : ∀ d ∈ escapeChar c, 0x20 ≤ d.toNat := by
    unfold escapeChar
    split
    case h_8 =>
      split
      · have hhigh := hdigit (c.toNat / 16) (by omega)
        have hlow := hdigit (c.toNat % 16) (by omega)
        simp [hhigh, hlow]
      · simpa using ‹¬c.toNat < 0x20›
    all_goals exact hall rfl
  simp only [quote, List.cons_append, List.forall_mem_cons, List.forall_mem_append,
    List.forall_mem_flatMap]
  exact ⟨by decide, fun c _ => hescape c, by decide, List.forall_mem_nil _⟩

end Text

/-- What is written of any value between quotes is a single scrap, a string with that value. -/
theorem Scrap.located_quote (value : List Char) :
    located (quote value) = [(⟨[], .string (String.ofList value), quote value⟩,
      ⟨0, utf8Length (quote value)⟩)] := by
  have hscan := Token.legible_string (String.ofList value) [] nofun
  rw [List.append_nil, Token.write, String.toList_ofList] at hscan
  exact located_of_scansFrom rfl hscan

/-- What is written of any value between quotes is one string that spans it, with that value, and it has no
control character. Reading it in parts gives the value, too. -/
theorem tokenize_quote (value : List Char) :
    tokenize (String.ofList (quote value)) = ([.string (String.ofList value)], none) ∧
      Scrap.located (quote value) = [(⟨[], .string (String.ofList value), quote value⟩,
        ⟨0, utf8Length (quote value)⟩)] ∧
      (∀ hex : HexReader, readString? hex (.around [] ['"'] (quote value).tail) =
        some (some value, .around [] (quote value) [])) ∧
      ∀ c ∈ quote value, 0x20 ≤ c.toNat := by
  have hlocated := Scrap.located_quote value
  refine ⟨?_, hlocated, fun hex => ?_, le_toNat_of_mem_quote⟩
  · rw [tokenize, String.toList_ofList, hlocated]
    rfl
  · have htail : (quote value).tail = value.flatMap escapeChar ++ '"' :: [] := rfl
    have hlength : (value.flatMap escapeChar).length + 1 =
        (value.flatMap escapeChar ++ '"' :: []).length := by simp
    rw [readString?_around, htail, readQuoted_escape, hlength]
    dsimp only
    rw [List.take_length, List.drop_length]
    rfl

end GraphQLTree
