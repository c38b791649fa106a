import GraphQLTree.Proofs.Text.Parts
import GraphQLTree.Proofs.Token.Places

/-!
# Tokens tile their text

What a token is read from **spells** it: all but strings are read from just their text. The tokens of a
text lie one behind the other in it, none of them without characters, and with nothing but ignored characters
around them. Such a text is **tiled** by its tokens (`Scrap.tiles_places`), whatever they are, so no
character of it is read twice, and none is skipped that isn't ignored.
-/

namespace GraphQLTree

namespace Token

/-- Whether a token may be read from a text. Strings, and what forms no token, may be read from any. -/
def Spells : Token → List Char → Prop
  | punct p, text => text = p.text.toList
  | name s, text => text = s.toList
  | int s, text => text = s.toList
  | float s, text => text = s.toList
  | comment s, text => text = '#' :: s.toList ∧ ∀ c ∈ s.toList, c ≠ '\n' ∧ c ≠ '\r'
  | _, _ => True

/-- The characters between tokens. -/
def ignored : List Char :=
  [' ', '\t', '\r', '\n', ',', '\uFEFF']

theorem isIgnored_iff {c : Char} : isIgnored c = true ↔ c ∈ ignored := by
  simp only [isIgnored, ignored, Bool.or_eq_true, beq_iff_eq, List.mem_cons, List.not_mem_nil,
    or_false, or_assoc]

/-! ### One token -/

private theorem scanNumber_pos (cs : List Char) : 0 < (scanNumber cs).2 := by
  rw [scanNumber_eq]
  split
  · exact Nat.one_pos
  · next hdigits =>
    have hinteger : 0 < integerLength cs := by
      unfold integerLength
      omega
    have hbody : integerLength cs ≤ bodyLength cs := Nat.le_add_right _ _
    split
    · exact hinteger
    dsimp only
    split
    · dsimp only
      omega
    split <;> dsimp only <;> omega

private theorem scanString_pos (cs : List Char) : 0 < (scanString cs).2 := by
  unfold scanString
  split
  · split <;> simp
  · split
    · simp
    · exact Text.brokenLength_pos _

/-- A token has a character at least. -/
theorem scan_pos (c : Char) (cs : List Char) : 0 < (scan c cs).2 := by
  unfold scan
  split
  · exact Nat.one_pos
  split
  · split <;> simp
  split
  · dsimp only
    omega
  split
  · exact scanString_pos cs
  split
  · exact scanNumber_pos (c :: cs)
  split <;> simp

private theorem spells_ofChar? {c : Char} {p : Punctuator} (h : Punctuator.ofChar? c = some p) :
    (punct p).Spells [c] := by
  unfold Punctuator.ofChar? at h
  split at h
  case h_14 => cases h
  all_goals
    obtain rfl := Option.some.inj h
    rfl

private theorem spells_scanString (cs text : List Char) : (scanString cs).1.Spells text := by
  unfold scanString
  split <;> split <;> trivial

private theorem spells_scanNumber {cs : List Char} {token : Token} {size : Nat}
    (h : scanNumber cs = (token, size)) : token.Spells (cs.take size) := by
  by_cases hv : token = .invalid
  · rw [hv]
    trivial
  · rcases (scanNumber_take h hv).1 with rfl | rfl <;>
    · rw [Spells, String.toList_ofList]

/-- A token that is scanned is spelled by the characters that it takes. -/
theorem spells_scan (c : Char) (cs : List Char) :
    (scan c cs).1.Spells ((c :: cs).take (scan c cs).2) := by
  have hwhile (p : Char → Bool) : cs.take (cs.takeWhile p).length = cs.takeWhile p :=
    (List.prefix_iff_eq_take.1 (List.takeWhile_prefix p)).symm
  unfold scan
  split
  · next p hp => exact spells_ofChar? hp
  split
  · next hdot =>
    split
    · next hdots =>
      obtain rfl := eq_of_beq hdot
      have htake : cs.take 2 = ['.', '.'] := eq_of_beq hdots
      rw [Spells, List.take_succ_cons, htake]
      rfl
    · trivial
  split
  · next hhash =>
    obtain rfl := eq_of_beq hhash
    dsimp only
    rw [Spells, String.toList_ofList, Nat.add_comm, List.take_succ_cons, hwhile]
    refine ⟨rfl, fun c hc => ?_⟩
    have hpart := List.all_eq_true.1 List.all_takeWhile c hc
    simpa [isCommentPart] using hpart
  split
  · exact spells_scanString cs _
  split
  · exact spells_scanNumber (Prod.eta _).symm
  split
  · dsimp only
    rw [Spells, String.toList_ofList, List.length_cons, List.take_succ_cons, hwhile]
  · trivial

end Token

/-! ### Tilings -/

/-- Whether tokens with their places tile what is left of a text behind some characters of it. -/
inductive Tiles : List Char → List Char → List (Token × Span) → Prop where
  | nil {before gap : List Char} (hgap : ∀ c ∈ gap, c ∈ Token.ignored) : Tiles before gap []
  | cons {before gap text rest : List Char} {token : Token} {places : List (Token × Span)}
    (hgap : ∀ c ∈ gap, c ∈ Token.ignored) (hne : text ≠ []) (hspells : token.Spells text)
    (hrest : Tiles (before ++ (gap ++ text)) rest places) :
    Tiles before (gap ++ (text ++ rest))
      ((token, Scrap.span (Text.utf8Length before) ⟨gap, token, text⟩) :: places)

namespace Tiles

variable {before rest : List Char} {places : List (Token × Span)}

/-- Tokens have characters, and none starts in front of what is tiled. -/
theorem lt_of_mem (h : Tiles before rest places) : ∀ place ∈ places,
    Text.utf8Length before ≤ place.2.start ∧ place.2.start < place.2.stop := by
  induction h with
  | nil => exact nofun
  | @cons before gap text rest token places hgap hne hspells hrest ih =>
    have hpos := List.length_pos_iff.2 hne
    have hle := Text.length_le_utf8Length text
    refine List.forall_mem_cons.2 ⟨?_, fun place hplace => ?_⟩
    · simp only [Scrap.span]
      omega
    · have hplace := ih place hplace
      rw [Text.utf8Length_append] at hplace
      omega

/-- No token starts in front of the end of one before it. -/
theorem pairwise (h : Tiles before rest places) :
    places.Pairwise fun a b => a.2.stop ≤ b.2.start := by
  induction h with
  | nil => exact .nil
  | cons hgap hne hspells hrest ih =>
    refine .cons (fun place hplace => ?_) ih
    have hle := (hrest.lt_of_mem place hplace).1
    simp only [Text.utf8Length_append] at hle
    simp only [Scrap.span]
    omega

/-- Tokens are spelled by the text at their places. -/
theorem exists_slice? (h : Tiles before rest places) : ∀ place ∈ places, ∃ text,
    Text.slice? place.2.start place.2.stop (before ++ rest) = some text ∧ place.1.Spells text := by
  induction h with
  | nil => exact nofun
  | @cons before gap text rest token places hgap hne hspells hrest ih =>
    refine List.forall_mem_cons.2 ⟨⟨text, ?_, hspells⟩, ?_⟩
    · exact Text.slice?_eq_some_iff.2
        ⟨before ++ gap, rest, (List.append_assoc _ _ _).symm, Text.utf8Length_append _ _, rfl⟩
    · simpa using ih

/-- A character of a text that is two parts is in the first of them or in the second. -/
private theorem eq_append_cons {a b inside after : List Char} {c : Char}
    (h : a ++ b = inside ++ c :: after) :
    (∃ later, a = inside ++ c :: later) ∨
      ∃ inside', inside = a ++ inside' ∧ b = inside' ++ c :: after := by
  rcases List.append_eq_append_iff.1 h with hsecond | ⟨later, rfl, hlater⟩
  · exact .inr hsecond
  cases later with
  | nil => exact .inr ⟨[], by simp, hlater.symm⟩
  | cons d later =>
    obtain ⟨rfl, -⟩ := List.cons.inj hlater
    exact .inl ⟨later, rfl⟩

/-- A character that lies in no token is ignored. -/
theorem mem_ignored (h : Tiles before rest places) {inside after : List Char} {c : Char}
    (hrest : rest = inside ++ c :: after)
    (hc : ∀ place ∈ places, ¬(place.2.start ≤ Text.utf8Length (before ++ inside) ∧
      Text.utf8Length (before ++ inside) < place.2.stop)) : c ∈ Token.ignored := by
  induction h generalizing inside with
  | nil hgap => exact hgap c (by simp [hrest])
  | @cons before gap text rest token places hgap hne hspells htail ih =>
    obtain ⟨hfirst, hc⟩ := List.forall_mem_cons.1 hc
    rcases eq_append_cons hrest with ⟨later, rfl⟩ | ⟨inside, rfl, htext⟩
    · exact hgap c (by simp)
    rcases eq_append_cons htext with ⟨later, rfl⟩ | ⟨inside, rfl, hrest'⟩
    · refine absurd ?_ hfirst
      have hpos := c.utf8Size_pos
      simp only [Scrap.span, Text.utf8Length_append, Text.utf8Length_cons]
      omega
    · exact ih hrest' (by simpa using hc)

end Tiles

namespace Scrap

/-- The first scrap is scanned behind the ignored characters. -/
theorem next?_of_dropWhile {cs rest : List Char} {c : Char}
    (h : cs.dropWhile Token.isIgnored = c :: rest) :
    next? cs = some (⟨cs.takeWhile Token.isIgnored, (Token.scan c rest).1,
      (c :: rest).take (Token.scan c rest).2⟩, (c :: rest).drop (Token.scan c rest).2) := by
  obtain ⟨n, hn⟩ := Nat.exists_eq_succ_of_ne_zero (Nat.ne_of_gt (Token.scan_pos c rest))
  rw [next?, h]
  dsimp only
  rw [hn]
  rfl

/-- The token of the first scrap of a text is spelled by the scrap's text. -/
theorem spells_of_next? {cs rest : List Char} {scrap : Scrap} (h : next? cs = some (scrap, rest)) :
    scrap.token.Spells scrap.text := by
  cases hdrop : cs.dropWhile Token.isIgnored with
  | nil =>
    rw [next?, hdrop] at h
    cases h
  | cons c tail =>
    rw [next?_of_dropWhile hdrop, Option.some.injEq, Prod.mk.injEq] at h
    rw [← h.1]
    exact Token.spells_scan c tail

/-- The tokens of a text with their places. -/
def places (cs : List Char) : List (Token × Span) :=
  (located cs).map fun located => (located.1.token, located.2)

/-- The tokens of what is left of a text tile it. -/
theorem tiles_locateFrom (cs before : List Char) :
    Tiles before cs ((locateFrom (Text.utf8Length before) (scanAll cs)).map fun located =>
      (located.1.token, located.2)) := by
  induction cs using scanAll_induction generalizing before with
  | none cs h =>
    rw [scanAll_of_none h]
    exact .nil fun c hc => Token.isIgnored_iff.1 (isIgnored_of_scanAll (scanAll_of_none h) c hc)
  | some cs scrap rest h ih =>
    obtain ⟨rfl, hgap, hne⟩ := eq_of_next? h
    have hstop : (scrap.span (Text.utf8Length before)).stop =
        Text.utf8Length (before ++ (scrap.gap ++ scrap.text)) := by
      rw [span_utf8Length, List.append_assoc]
    rw [scanAll_of_some h, locateFrom, List.map_cons, hstop]
    exact .cons (fun c hc => Token.isIgnored_iff.1 (hgap c hc)) hne (spells_of_next? h) (ih _)

/-- The tokens of a text tile it. -/
theorem tiles_places (cs : List Char) : Tiles [] cs (places cs) :=
  tiles_locateFrom cs []

end Scrap

end GraphQLTree
