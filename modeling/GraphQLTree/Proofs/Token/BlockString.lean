import GraphQLTree.Proofs.Token.Significant

/-!
# Written block strings are single tokens

Any text whatsoever can be written between three quotes: what is written is one token, which takes all
of the text, so no value ends its literal early or leaves it open (`located_blockQuote`). The token's
value is what block strings are read as, and that is the value which was written if any raw text has it
(`tokenize_blockQuote`).
-/

namespace GraphQLTree

namespace Scrap

/-- A text that scans as one token from its first character to its last is a single scrap. -/
theorem located_of_scansFrom {token : Token} {c : Char} {cs : List Char}
    (hc : Token.isIgnored c = false) (h : token.ScansFrom (c :: cs).length (c :: cs)) :
    located (c :: cs) = [(⟨[], token, c :: cs⟩, ⟨0, Text.utf8Length (c :: cs)⟩)] := by
  have hnext : next? (c :: cs) = some (⟨[], token, c :: cs⟩, []) := by
    have hscan : token.ScansFrom (c :: cs).length ((c :: cs) ++ []) := by rwa [List.append_nil]
    have happend : next? ([] ++ ((c :: cs) ++ [])) = some (⟨[], token, c :: cs⟩, []) :=
      next?_append (by simp) (by simp) (by simpa using hc) hscan
    rwa [List.nil_append, List.append_nil] at happend
  have hspan : span 0 ⟨[], token, c :: cs⟩ = ⟨0, Text.utf8Length (c :: cs)⟩ := by
    simp [span, Text.utf8Length]
  rw [located, scanAll_of_some hnext, show scanAll [] = [] from rfl, locateFrom, hspan]
  rfl

/-- What is written of any value as a block string is a single scrap, a block string. -/
theorem located_blockQuote (value : List Char) :
    located (Text.blockQuote value) =
      [(⟨[], .blockString (String.ofList (Text.dedent (Text.writtenRaw value))),
          Text.blockQuote value⟩, ⟨0, Text.utf8Length (Text.blockQuote value)⟩)] := by
  obtain ⟨body, hbody, hread⟩ := Text.readBlock_writtenRaw value []
  rw [List.append_nil] at hread
  have htext : Text.blockQuote value = '"' :: '"' :: '"' :: body := hbody
  rw [htext]
  refine located_of_scansFrom rfl ?_
  rw [Token.ScansFrom, Token.scan_quote, Token.scanString, hread]
  rfl

end Scrap

/-- The text written for any value is one block string that spans it, and the value of that token is the
value that was written wherever this is the value of a raw text. -/
theorem tokenize_blockQuote :
    (∀ value : List Char, ∃ read : String,
      Scrap.located (Text.blockQuote value) =
        [(⟨[], .blockString read, Text.blockQuote value⟩,
          ⟨0, Text.utf8Length (Text.blockQuote value)⟩)] ∧
      tokenize (String.ofList (Text.blockQuote value)) = ([.blockString read], none)) ∧
    ∀ raw : List Char, tokenize (String.ofList (Text.blockQuote (Text.dedent raw))) =
      ([.blockString (String.ofList (Text.dedent raw))], none) := by
  have htokens (value : List Char) : tokenize (String.ofList (Text.blockQuote value)) =
      ([.blockString (String.ofList (Text.dedent (Text.writtenRaw value)))], none) := by
    rw [tokenize, String.toList_ofList, Scrap.located_blockQuote]
    rfl
  refine ⟨fun value => ⟨_, Scrap.located_blockQuote value, htokens value⟩, fun raw => ?_⟩
  rw [htokens, Text.dedent_writtenRaw]

/-- A value of quotes and backslashes that no raw text has: its first line is blank. -/
example : tokenize (String.ofList (Text.blockQuote "\n\"\"\"\"\\".toList)) =
    ([.blockString "\"\"\"\"\\"], none) := by
  decide

end GraphQLTree
