import GraphQLTree.Proofs.Token.Literal
import GraphQLTree.Proofs.Token.Prefix

/-!
# Outside strings and comments

What a text is **outside** its strings and comments is the text with the characters of those blotted out
(`Text.outside`). No other token has a space or a line break in it (`Token.Sound.not_ignored`), so both
are outside only where they stand between tokens.
-/

namespace GraphQLTree

namespace Token

/-- Whether any text may stand in a token: it is a string or a comment. -/
def holdsText : Token → Bool
  | string _ => true
  | blockString _ => true
  | comment _ => true
  | _ => false

/-- The characters of a token, blotted out if any text may stand in it. -/
def mask (token : Token) (text : List Char) : List (Option Char) :=
  text.map fun c => if token.holdsText then none else some c

/-! ### Characters of tokens -/

/-- Whether a character may stand in a number. -/
private def isNumberPart (c : Char) : Bool :=
  isNamePart c || c ∈ ['-', '+', '.']

private theorem IsDigits.isNumberPart {text : List Char} (h : IsDigits text) :
    ∀ c ∈ text, isNumberPart c = true := by
  intro c hc
  simp [Token.isNumberPart, isNamePart, h.2 c hc]

private theorem IsInteger.isNumberPart {text : List Char} (h : IsInteger text) :
    ∀ c ∈ text, isNumberPart c = true := by
  obtain ⟨minus, digits, rfl, hminus, hdigits, -⟩ := h
  refine List.forall_mem_append.2 ⟨?_, hdigits.isNumberPart⟩
  have hall : ∀ sign ∈ [[], ['-']], ∀ c ∈ sign, Token.isNumberPart c = true := by
    simp [Token.isNumberPart]
  exact hall minus hminus

private theorem IsFloat.isNumberPart {text : List Char} (h : IsFloat text) :
    ∀ c ∈ text, isNumberPart c = true := by
  obtain ⟨integer, fraction, exponent, rfl, hinteger, hfraction, hexponent, -⟩ := h
  refine List.forall_mem_append.2 ⟨List.forall_mem_append.2 ⟨hinteger.isNumberPart, ?_⟩, ?_⟩
  · rcases hfraction with rfl | ⟨digits, rfl, hdigits⟩
    · simp
    · exact List.forall_mem_cons.2 ⟨by decide, hdigits.isNumberPart⟩
  · rcases hexponent with rfl | ⟨mark, sign, digits, rfl, hmark, hsign, hdigits⟩
    · simp
    · have hmarks : ∀ mark ∈ ['e', 'E'], Token.isNumberPart mark = true := by
        simp [Token.isNumberPart, isNamePart, isNameStart]
      have hsigns : ∀ sign ∈ [[], ['-'], ['+']], ∀ c ∈ sign, Token.isNumberPart c = true := by
        simp [Token.isNumberPart]
      exact List.forall_mem_cons.2 ⟨hmarks mark hmark,
        List.forall_mem_append.2 ⟨hsigns sign hsign, hdigits.isNumberPart⟩⟩

private theorem isIgnored_of_isNumberPart {c : Char} (h : isNumberPart c = true) :
    isIgnored c = false := by
  rcases Bool.or_eq_true_iff.1 h with hname | hsign
  · exact isIgnored_eq_false_of_isNamePart hname
  · have hsigns : ∀ c ∈ ['-', '+', '.'], isIgnored c = false := by simp [isIgnored]
    exact hsigns c (by simpa using hsign)

/-- Punctuators, names and numbers have no ignored characters. -/
theorem Sound.not_ignored {token : Token} (h : token.Sound) (hholds : token.holdsText = false) :
    ∀ c ∈ token.write, isIgnored c = false := by
  have hregular := h.regular
  cases token with
  | punct p => cases p <;> simp [write, Punctuator.text, isIgnored]
  | name text =>
    intro c hc
    rw [write] at hc
    obtain ⟨d, l, htext⟩ := List.exists_cons_of_ne_nil (List.ne_nil_of_mem hc)
    simp only [Regular, htext] at hregular hc
    refine isIgnored_eq_false_of_isNamePart ?_
    rcases List.mem_cons.1 hc with rfl | hc
    · simp [isNamePart, hregular.1]
    · exact hregular.2 c hc
  | int text =>
    have hinteger : IsInteger text.toList := hregular.resolve_right And.left
    exact fun c hc => isIgnored_of_isNumberPart (hinteger.isNumberPart c hc)
  | float text =>
    have hfloat : IsFloat text.toList := hregular.resolve_right And.left
    exact fun c hc => isIgnored_of_isNumberPart (hfloat.isNumberPart c hc)
  | invalid => exact absurd h id
  | _ => cases hholds

/-- What is outside of a sound token has no ignored characters. -/
theorem Sound.mask_not_ignored {token : Token} (h : token.Sound) {c : Char}
    (hc : some c ∈ token.mask token.write) : isIgnored c = false := by
  obtain ⟨d, hd, heq⟩ := List.mem_map.1 hc
  cases hholds : token.holdsText with
  | true => simp [hholds] at heq
  | false =>
    obtain rfl : d = c := by simpa [hholds] using heq
    exact h.not_ignored hholds d hd

end Token

/-! ### Texts -/

/-- The characters of a scrap, those of strings and comments blotted out. -/
def Scrap.outside (scrap : Scrap) : List (Option Char) :=
  scrap.gap.map some ++ scrap.token.mask scrap.text

/-- The characters of a text, those of its strings and comments blotted out. -/
def Text.outside (cs : List Char) : List (Option Char) :=
  (Scrap.scanAll cs).flatMap Scrap.outside ++
    (cs.drop (Scrap.flat (Scrap.scanAll cs)).length).map some

theorem Scrap.length_flatMap_outside (scraps : List Scrap) :
    (scraps.flatMap outside).length = (flat scraps).length := by
  simp [flat, outside, Token.mask, List.length_flatMap]

/-- A character is where it was. -/
@[simp]
theorem Text.length_outside (cs : List Char) : (outside cs).length = cs.length := by
  obtain ⟨gap, hcuts, -⟩ := Scrap.Cuts.exists_of_scanAll (List.append_nil (Scrap.scanAll cs)).symm
  have hlength := congrArg List.length hcuts.eq_flat
  rw [List.length_append] at hlength
  rw [outside, List.length_append, Scrap.length_flatMap_outside, List.length_map, List.length_drop]
  omega

/-- Ignored characters in front of a text are outside. -/
theorem Text.outside_cons {c : Char} (hc : Token.isIgnored c = true) (cs : List Char) :
    outside (c :: cs) = some c :: outside cs := by
  have hscan : Scrap.scanAll (c :: cs) = (Scrap.scanAll cs).modifyHead (Scrap.pad [c]) :=
    Scrap.scanAll_append (List.forall_mem_singleton.2 hc) cs
  rw [outside, outside, hscan]
  cases Scrap.scanAll cs with
  | nil => rfl
  | cons scrap scraps => simp [Scrap.pad, Scrap.outside, Scrap.flat]

end GraphQLTree
