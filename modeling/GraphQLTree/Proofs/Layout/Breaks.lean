import Mathlib.Data.List.Chain
import GraphQLTree.Proofs.Layout.Styled
import GraphQLTree.Proofs.Token.Outside

/-!
# Line breaks between pieces

Gaps between the tokens of rendered pieces are **neat**: a line break is the last character of its gap
and has no space in front of it (`Piece.isNeat_spread`), as long as no piece breaks two lines at once. So
the text of such pieces is **tight** outside strings and comments: spaces and line breaks don't meet, and
neither do line breaks (`Piece.isChain_spreadOutside`).
-/

namespace GraphQLTree

open Text (endsLine glue trimSpaces)

/-! ### Neat gaps -/

namespace Text

/-- Whether a gap is flat: there are only spaces and commas. -/
def IsFlat (gap : List Char) : Prop :=
  ∀ c ∈ gap, c = ' ' ∨ c = ','

/-- Whether a gap is neat: it is flat, or it ends with a line break that has no space in front of it and is
flat up to there. -/
inductive IsNeat : List Char → Prop
  | flat {front : List Char} (hfront : IsFlat front) : IsNeat front
  | broken {front : List Char} (hfront : IsFlat front) (hlast : front.getLast? ≠ some ' ') :
    IsNeat (front ++ ['\n'])

theorem IsFlat.lineFeed_notMem {gap : List Char} (h : IsFlat gap) : '\n' ∉ gap :=
  fun hmem => by simpa using h '\n' hmem

theorem IsFlat.endsLine {gap : List Char} (h : IsFlat gap) : endsLine gap = false := by
  rw [Bool.eq_false_iff]
  intro hends
  exact h.lineFeed_notMem (List.mem_of_getLast? (by simpa [Text.endsLine] using hends))

theorem endsLine_broken (front : List Char) : endsLine (front ++ ['\n']) = true := by
  simp [endsLine]

theorem mem_of_mem_trimSpaces {c : Char} {text : List Char} (h : c ∈ trimSpaces text) : c ∈ text :=
  List.mem_reverse.1 ((List.dropWhile_suffix _).mem (List.mem_reverse.1 h))

theorem getLast?_trimSpaces (text : List Char) : (trimSpaces text).getLast? ≠ some ' ' := by
  intro hlast
  rw [trimSpaces, List.getLast?_reverse] at hlast
  have hhead := List.head?_dropWhile_not (· == ' ') text.reverse
  rw [← dropSpaces, hlast] at hhead
  cases hhead

namespace IsNeat

variable {gap text : List Char}

theorem nil : IsNeat [] :=
  .flat (by simp [IsFlat])

/-- Spaces and commas are glued behind a neat gap, but only spaces behind a line break. -/
theorem glue_flat (h : IsNeat gap) (htext : IsFlat text)
    (hline : endsLine gap = true → ∀ c ∈ text, c = ' ') : IsNeat (glue gap text) := by
  cases h with
  | flat hfront =>
    have hhead : text.head? ≠ some '\n' := fun hhead =>
      htext.lineFeed_notMem (List.mem_of_mem_head? hhead)
    rw [glue_of_head?_ne hfront.endsLine hhead]
    exact .flat (List.forall_mem_append.2 ⟨hfront, htext⟩)
  | @broken front hfront hlast =>
    have hspaces := hline (endsLine_broken front)
    rw [glue_of_endsLine (endsLine_broken front), afterBreak, dropSpaces_eq_nil_iff.2 hspaces,
      dropLineFeed, List.append_nil]
    · exact .broken hfront hlast
    · simp

/-- Behind a neat gap, a line is broken once. -/
theorem glue_lineFeed (h : IsNeat gap) : IsNeat (glue gap ['\n']) := by
  cases h with
  | flat hfront =>
    rw [Text.glue_lineFeed hfront.endsLine]
    exact .broken (fun c hc => hfront c (mem_of_mem_trimSpaces hc)) (getLast?_trimSpaces _)
  | @broken front hfront hlast =>
    have hafter : afterBreak ['\n'] = [] := rfl
    rw [glue_of_endsLine (endsLine_broken front), hafter, List.append_nil]
    exact .broken hfront hlast

end IsNeat

/-- Behind any text, two line breaks are one and another one. -/
theorem glue_lineFeeds (out : List Char) : glue out ['\n', '\n'] = glue out ['\n'] ++ ['\n'] := by
  cases hout : endsLine out with
  | true =>
    rw [glue_of_endsLine hout, glue_of_endsLine hout, List.append_assoc]
    rfl
  | false =>
    rw [Text.glue_lineFeed hout, Text.glue_lineFeed hout, List.append_assoc]
    rfl

end Text

/-! ### Tight texts -/

namespace Text

/-- Whether a space and a line break, in either order, aren't next to each other. -/
def Tidy (a b : Option Char) : Prop :=
  ¬(a = some ' ' ∧ b = some '\n') ∧ ¬(a = some '\n' ∧ b = some ' ')

/-- Whether two line breaks aren't next to each other either. -/
def Tight (a b : Option Char) : Prop :=
  Tidy a b ∧ ¬(a = some '\n' ∧ b = some '\n')

/-- Whether something isn't a space or a line break. -/
def Solid (a : Option Char) : Prop :=
  a ≠ some ' ' ∧ a ≠ some '\n'

theorem Solid.tight_left {a b : Option Char} (h : Solid a) : Tight a b := by
  simp [Tight, Tidy, h.1, h.2]

theorem Solid.tight_right {a b : Option Char} (h : Solid b) : Tight a b := by
  simp [Tight, Tidy, h.1, h.2]

/-- A neat gap is tight. -/
theorem IsNeat.isChain {gap : List Char} (h : IsNeat gap) : (gap.map some).IsChain Tight := by
  have hflat {front : List Char} (hfront : IsFlat front) : (front.map some).IsChain Tight := by
    have hbreak : ∀ a ∈ front.map some, a ≠ some '\n' := by
      rintro a ha rfl
      exact hfront.lineFeed_notMem (by simpa using ha)
    refine List.isChain_iff_forall_rel_of_append_cons_cons.2 fun a b l m hl => ?_
    have ha := hbreak a (by simp [hl])
    have hb := hbreak b (by simp [hl])
    simp [Tight, Tidy, ha, hb]
  cases h with
  | flat hfront => exact hflat hfront
  | @broken front hfront hlast =>
    rw [List.map_append]
    refine List.isChain_append.2 ⟨hflat hfront, .singleton _, fun a ha b hb => ?_⟩
    obtain rfl : b = some '\n' := by simpa using hb.symm
    rw [List.getLast?_map] at ha
    obtain ⟨c, hc, rfl⟩ := Option.map_eq_some_iff.1 ha
    have hspace : c ≠ ' ' := by
      rintro rfl
      exact hlast hc
    have hbreak : c ≠ '\n' := by
      rintro rfl
      exact hfront.lineFeed_notMem (List.mem_of_getLast? hc)
    simp [Tight, Tidy, hspace, hbreak]

/-- A tight list may follow solid characters. -/
theorem isChain_append_of_solid {a b : List (Option Char)} (ha : ∀ x ∈ a, Solid x)
    (hb : b.IsChain Tight) : (a ++ b).IsChain Tight := by
  refine List.isChain_append.2 ⟨?_, hb, fun x hx y _ => (ha x (List.mem_of_getLast? hx)).tight_left⟩
  exact List.isChain_iff_forall_rel_of_append_cons_cons.2 fun x y l m hl =>
    (ha x (by simp [hl])).tight_left

end Text

/-! ### Strokes -/

theorem Token.Sound.solid_mask {token : Token} (h : token.Sound) :
    ∀ a ∈ token.mask token.write, Text.Solid a := by
  intro a ha
  constructor <;> rintro rfl <;> cases h.mask_not_ignored ha

theorem Token.Sound.mask_ne_nil {token : Token} (h : token.Sound) : token.mask token.write ≠ [] := by
  obtain ⟨c, l, hwrite, -⟩ := Token.Known.exists_cons (.inl h)
  simp [mask, hwrite]

namespace Stroke

/-- The characters of a stroke, those of strings and comments blotted out. -/
def outside (stroke : Stroke) : List (Option Char) :=
  stroke.gap.map some ++ stroke.token.mask stroke.token.write

theorem outside_scrap {stroke : Stroke} (h : stroke.token.Sound) :
    stroke.scrap.outside = stroke.outside := by
  rw [Scrap.outside, outside, scrap, h.rescanned]

/-- The strokes of tokens with neat gaps in front of them are tight, and so is a neat gap behind them. -/
theorem isChain_outside {strokes : List Stroke} {last : List Char}
    (hgaps : ∀ stroke ∈ strokes, Text.IsNeat stroke.gap)
    (hsound : ∀ stroke ∈ strokes, stroke.token.Sound) (hlast : Text.IsNeat last) :
    (strokes.flatMap outside ++ last.map some).IsChain Text.Tight := by
  induction strokes with
  | nil => exact hlast.isChain
  | cons stroke strokes ih =>
    obtain ⟨hgap, hgaps⟩ := List.forall_mem_cons.1 hgaps
    obtain ⟨htoken, hsound⟩ := List.forall_mem_cons.1 hsound
    rw [List.flatMap_cons, outside, List.append_assoc, List.append_assoc]
    refine List.isChain_append.2
      ⟨hgap.isChain, Text.isChain_append_of_solid htoken.solid_mask (ih hgaps hsound), ?_⟩
    intro a _ b hb
    obtain ⟨first, mask, hmask⟩ := List.exists_cons_of_ne_nil htoken.mask_ne_nil
    rw [hmask] at hb
    obtain rfl := Option.some.inj hb
    exact (htoken.solid_mask first (by simp [hmask])).tight_right

end Stroke

/-! ### Pieces -/

namespace Piece

variable {pretty : Bool} {gap : List Char} {pieces : List Piece}

/-- How many lines a space breaks. -/
def breaks (pretty : Bool) : Piece → Nat
  | lines compact loose => if pretty then loose else compact
  | _ => 0

/-- Pieces break as many lines in a style as they do. -/
theorem breaks_le_styled (style : Style) (h : ∀ piece ∈ pieces, piece.breaks pretty ≤ 1) :
    ∀ piece ∈ styled style pieces, piece.breaks pretty ≤ 1 := by
  intro piece hp
  obtain ⟨piece', hmem, he⟩ := List.mem_filterMap.1 hp
  have hpiece := h piece' hmem
  cases piece' with
  | leading text =>
    obtain ⟨-, rfl⟩ := by simpa [styled?] using he
    exact Nat.zero_le 1
  | trailing text =>
    obtain ⟨-, rfl⟩ := by simpa [styled?] using he
    exact Nat.zero_le 1
  | _ =>
    obtain rfl := Option.some.inj he
    exact hpiece

theorem isNeat_softSpace (h : Text.IsNeat gap) : Text.IsNeat (glue gap (softSpace pretty)) := by
  have hspaces : ∀ c ∈ softSpace pretty, c = ' ' := by
    cases pretty <;> simp [softSpace]
  exact h.glue_flat (fun c hc => .inl (hspaces c hc)) fun _ => hspaces

/-- Space that breaks no more than one line is put behind a neat gap. -/
theorem isNeat_put (h : Text.IsNeat gap) {piece : Piece} (hink : piece.ink = none)
    (hbreaks : piece.breaks pretty ≤ 1) : Text.IsNeat (put pretty gap piece) := by
  unfold put
  split
  · exact h
  · next hcomma =>
    cases piece with
    | soft => exact isNeat_softSpace h
    | hard => exact h.glue_flat (by simp [Piece.text, Text.IsFlat]) (by simp [Piece.text])
    | comma =>
      refine h.glue_flat (by cases pretty <;> simp [Piece.text, softSpace, Text.IsFlat]) fun hends => ?_
      simp [hends] at hcomma
    | lines compact loose =>
      have htext : (lines compact loose).text pretty =
          List.replicate ((lines compact loose).breaks pretty) '\n' := rfl
      rw [htext]
      obtain hnone | hone := Nat.le_one_iff_eq_zero_or_eq_one.1 hbreaks
      · rwa [hnone, List.replicate_zero, Text.glue_nil]
      · rw [hone]
        exact h.glue_lineFeed
    | _ => cases hink

theorem isNeat_before (h : Text.IsNeat gap) (piece : Piece) :
    Text.IsNeat (glue gap (piece.before pretty)) := by
  cases piece with
  | leading text => exact h.glue_lineFeed
  | trailing text => exact isNeat_softSpace h
  | _ => exact (Text.glue_nil gap).symm ▸ h

theorem isNeat_behind (piece : Piece) : Text.IsNeat piece.behind := by
  cases piece with
  | leading text => exact Text.IsNeat.nil.glue_lineFeed
  | trailing text => exact Text.IsNeat.nil.glue_lineFeed
  | _ => exact .nil

/-- The gaps between pieces are neat that break no more than one line each. -/
theorem isNeat_spread (h : Text.IsNeat gap) (hbreaks : ∀ piece ∈ pieces, piece.breaks pretty ≤ 1) :
    (∀ stroke ∈ (spread pretty gap pieces).1, Text.IsNeat stroke.gap) ∧
      Text.IsNeat (spread pretty gap pieces).2 := by
  induction pieces generalizing gap with
  | nil => exact ⟨by simp [spread], h⟩
  | cons piece pieces ih =>
    obtain ⟨hpiece, hbreaks⟩ := List.forall_mem_cons.1 hbreaks
    cases hink : piece.ink with
    | none =>
      rw [spread_space hink]
      exact ih (isNeat_put h hink hpiece) hbreaks
    | some t =>
      obtain ⟨hgaps, hlast⟩ := ih (isNeat_behind piece) hbreaks
      rw [spread_ink hink]
      exact ⟨List.forall_mem_cons.2 ⟨isNeat_before h piece, hgaps⟩, hlast⟩

/-- The tokens that sound pieces are spread over are sound. -/
theorem sound_spread (hsound : Sound pieces) (gap : List Char) :
    ∀ stroke ∈ (spread pretty gap pieces).1, stroke.token.Sound := by
  induction pieces generalizing gap with
  | nil => simp [spread]
  | cons piece pieces ih =>
    obtain ⟨hpiece, hpieces⟩ := hsound.cons
    cases hink : piece.ink with
    | none =>
      rw [spread_space hink]
      exact ih hpieces _
    | some t =>
      rw [spread_ink hink]
      refine List.forall_mem_cons.2 ⟨?_, ih hpieces _⟩
      cases piece with
      | leading text => obtain rfl := Option.some.inj hink; exact hpiece
      | trailing text => obtain rfl := Option.some.inj hink; exact hpiece
      | token t' => obtain rfl := Option.some.inj hink; exact hpiece.1
      | _ => cases hink

/-- Spreading goes on behind the last gap. -/
theorem spread_append (gap : List Char) (a b : List Piece) :
    spread pretty gap (a ++ b) =
      ((spread pretty gap a).1 ++ (spread pretty (spread pretty gap a).2 b).1,
        (spread pretty (spread pretty gap a).2 b).2) := by
  induction a generalizing gap with
  | nil => rfl
  | cons piece a ih =>
    cases hink : piece.ink with
    | none => rw [List.cons_append, spread_space hink, spread_space hink, ih]
    | some t => rw [List.cons_append, spread_ink hink, spread_ink hink, ih, List.cons_append]

theorem spreadText_nil (gap : List Char) : spreadText pretty gap [] = gap := rfl

theorem spreadText_append (gap : List Char) (a b : List Piece) :
    spreadText pretty gap (a ++ b) =
      Stroke.flat (spread pretty gap a).1 ++ spreadText pretty (spread pretty gap a).2 b := by
  rw [spreadText, spread_append, Stroke.flat, List.flatMap_append, List.append_assoc]
  rfl

/-- The characters of pieces behind a gap, those of strings and comments blotted out. -/
def spreadOutside (pretty : Bool) (gap : List Char) (pieces : List Piece) : List (Option Char) :=
  (spread pretty gap pieces).1.flatMap Stroke.outside ++ (spread pretty gap pieces).2.map some

theorem spreadOutside_nil (gap : List Char) : spreadOutside pretty gap [] = gap.map some := rfl

theorem spreadOutside_space {piece : Piece} (h : piece.ink = none) (gap : List Char)
    (pieces : List Piece) :
    spreadOutside pretty gap (piece :: pieces) =
      spreadOutside pretty (put pretty gap piece) pieces := by
  rw [spreadOutside, spread_space h]
  rfl

theorem spreadOutside_append (gap : List Char) (a b : List Piece) :
    spreadOutside pretty gap (a ++ b) = (spread pretty gap a).1.flatMap Stroke.outside ++
      spreadOutside pretty (spread pretty gap a).2 b := by
  rw [spreadOutside, spread_append, List.flatMap_append, List.append_assoc]
  rfl

/-- What is outside strings and comments in the text of spaced pieces. -/
theorem outside_spreadText (hgap : IsGap gap) {edge : Edge} (hspaced : Spaced edge pieces)
    (hsound : Sound pieces) :
    Text.outside (spreadText pretty gap pieces) = spreadOutside pretty gap pieces := by
  have hscraps : Scrap.scanAll (spreadText pretty gap pieces) =
      (spread pretty gap pieces).1.map Stroke.scrap := scanAll_spreadText hgap hspaced hsound.known
  have hflat : Scrap.flat ((spread pretty gap pieces).1.map Stroke.scrap) =
      Stroke.flat (spread pretty gap pieces).1 := by
    rw [Scrap.flat, List.flatMap_map]
    rfl
  have hmask : ((spread pretty gap pieces).1.map Stroke.scrap).flatMap Scrap.outside =
      (spread pretty gap pieces).1.flatMap Stroke.outside := by
    rw [List.flatMap_map]
    exact List.flatMap_congr fun stroke hstroke =>
      Stroke.outside_scrap (sound_spread hsound gap stroke hstroke)
  rw [Text.outside, hscraps, hmask, hflat, spreadText, List.drop_left, spreadOutside]

/-- Pieces that break no more than one line each are tight behind a neat gap. -/
theorem isChain_spreadOutside (h : Text.IsNeat gap) (hsound : Sound pieces)
    (hbreaks : ∀ piece ∈ pieces, piece.breaks pretty ≤ 1) :
    (spreadOutside pretty gap pieces).IsChain Text.Tight := by
  obtain ⟨hgaps, hlast⟩ := isNeat_spread h hbreaks
  exact Stroke.isChain_outside hgaps (sound_spread hsound gap) hlast

end Piece

end GraphQLTree
