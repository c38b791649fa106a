import GraphQLTree.Proofs.Layout.Scanned

/-!
# Pieces in a style

A style keeps comments or drops them, and pretty text has one space in front of the text of each.
Comments in one style are what they are in another one if nothing that it needs is lost
(`Piece.styled_styled`). Pieces are **anchored** if they start with a token, up to comments on lines of
their own: then they can stand anywhere in any style.
-/

namespace GraphQLTree

namespace Style

/-- The text of a comment in a style that keeps comments. -/
def commentText (style : Style) (text : String) : String :=
  if style.pretty then String.ofList (' ' :: Text.trimStart text.toList) else text

/-- Whether texts in one style have all that texts in another style need. -/
def Admits (style style' : Style) : Prop :=
  (style'.comments = true → style.comments = true) ∧
    (style = style' ∨ style.pretty = false ∨ style'.comments = false)

theorem trimStart_space_trimStart (text : List Char) :
    Text.trimStart (' ' :: Text.trimStart text) = Text.trimStart text := by
  have hspace (text : List Char) : Text.trimStart (' ' :: text) = Text.trimStart text := rfl
  rw [hspace]
  induction text with
  | nil => rfl
  | cons c text ih =>
    cases hc : Text.isBlank c with
    | true =>
      have hdrop : Text.trimStart (c :: text) = Text.trimStart text :=
        List.dropWhile_cons_of_pos hc
      rwa [hdrop]
    | false =>
      have hkept : Text.trimStart (c :: text) = c :: text :=
        List.dropWhile_cons_of_neg (by simp [hc])
      rw [hkept, hkept]

theorem commentText_commentText {style style' : Style}
    (h : style = style' ∨ style.pretty = false) (text : String) :
    style'.commentText (style.commentText text) = style'.commentText text := by
  rcases h with rfl | h
  · unfold commentText
    split
    · rw [String.toList_ofList, trimStart_space_trimStart]
    · rfl
  · rw [commentText.eq_def style, h, if_neg (by simp)]

end Style

namespace Piece

/-- A piece in a style, unless it is a comment that is dropped. -/
def styled? (style : Style) : Piece → Option Piece
  | leading text => if style.comments then some (leading (style.commentText text)) else none
  | trailing text => if style.comments then some (trailing (style.commentText text)) else none
  | piece => some piece

/-- Pieces in a style. -/
def styled (style : Style) (pieces : List Piece) : List Piece :=
  pieces.filterMap (styled? style)

theorem styled_trailing {style : Style} (h : style.comments = true) (text : String) :
    styled style [.trailing text] = [.trailing (style.commentText text)] := by
  simp [styled, styled?, h]

theorem styled_trailing_eq_nil {style : Style} (h : style.comments = false) (text : String) :
    styled style [.trailing text] = [] := by
  simp [styled, styled?, h]

variable (style : Style)

theorem styled_append (a b : List Piece) : styled style (a ++ b) = styled style a ++ styled style b :=
  List.filterMap_append

theorem styled_cons {piece piece' : Piece} (h : piece.styled? style = some piece')
    (pieces : List Piece) : styled style (piece :: pieces) = piece' :: styled style pieces :=
  List.filterMap_cons_some h

/-- Comments in a style that has all that another style needs are the same in that style. -/
theorem styled_styled {style style' : Style} (h : style.Admits style') (pieces : List Piece) :
    styled style' (styled style pieces) = styled style' pieces := by
  rw [styled, styled, styled, List.filterMap_filterMap]
  refine congrArg (fun f => List.filterMap f pieces) (funext fun piece => ?_)
  obtain ⟨hcomments, hstyle⟩ := h
  have htext (hc : style'.comments = true) (text : String) :
      style'.commentText (style.commentText text) = style'.commentText text :=
    Style.commentText_commentText (hstyle.imp_right fun h => h.resolve_right (by simp [hc])) text
  cases piece with
  | leading text =>
    cases hc : style'.comments with
    | false => cases hs : style.comments <;> simp [styled?, hc, hs]
    | true => simp [styled?, hc, hcomments hc, htext hc]
  | trailing text =>
    cases hc : style'.comments with
    | false => cases hs : style.comments <;> simp [styled?, hc, hs]
    | true => simp [styled?, hc, hcomments hc, htext hc]
  | _ => rfl

/-! ### Known pieces -/

theorem sound_commentText {text : String} (h : (Token.comment text).Sound) :
    (Token.comment (style.commentText text)).Sound := by
  unfold Style.commentText
  split
  · intro c hc
    rw [String.toList_ofList] at hc
    rcases List.mem_cons.1 hc with rfl | hc
    · decide
    · exact h c ((List.dropWhile_suffix _).subset hc)
  · exact h

theorem Known.styled {pieces : List Piece} (h : Known pieces) : Known (styled style pieces) := by
  intro piece hp
  obtain ⟨piece', hmem, he⟩ := List.mem_filterMap.1 hp
  have hknown := h piece' hmem
  cases piece' with
  | leading text =>
    obtain ⟨-, rfl⟩ := by simpa [styled?] using he
    exact sound_commentText style hknown
  | trailing text =>
    obtain ⟨-, rfl⟩ := by simpa [styled?] using he
    exact sound_commentText style hknown
  | _ =>
    obtain rfl := Option.some.inj he
    exact hknown

theorem Sound.styled {pieces : List Piece} (h : Sound pieces) : Sound (styled style pieces) := by
  intro piece hp
  obtain ⟨piece', hmem, he⟩ := List.mem_filterMap.1 hp
  have hsound := h piece' hmem
  cases piece' with
  | leading text =>
    obtain ⟨-, rfl⟩ := by simpa [styled?] using he
    exact sound_commentText style hsound
  | trailing text =>
    obtain ⟨-, rfl⟩ := by simpa [styled?] using he
    exact sound_commentText style hsound
  | _ =>
    obtain rfl := Option.some.inj he
    exact hsound

/-! ### Anchored pieces -/

/-- Whether pieces start with a token, up to comments on lines of their own. -/
def Anchored : List Piece → Prop
  | leading _ :: pieces => Anchored pieces
  | token _ :: _ => True
  | _ => False

theorem Anchored.append {a : List Piece} (h : Anchored a) (b : List Piece) : Anchored (a ++ b) := by
  induction a with
  | nil => cases h
  | cons piece a ih =>
    cases piece with
    | leading text => exact ih h
    | token t => trivial
    | _ => cases h

theorem Anchored.styled {pieces : List Piece} (h : Anchored pieces) :
    Anchored (styled style pieces) := by
  induction pieces with
  | nil => cases h
  | cons piece pieces ih =>
    cases piece with
    | leading text =>
      cases hc : style.comments with
      | true =>
        have hkept : (leading text).styled? style = some (leading (style.commentText text)) :=
          if_pos hc
        rw [styled_cons style hkept]
        exact ih h
      | false =>
        rw [Piece.styled, List.filterMap_cons_none (by simp [styled?, hc])]
        exact ih h
    | token t => trivial
    | _ => cases h

theorem Anchored.opens {pieces : List Piece} (h : Anchored pieces) : Opens pieces := by
  rintro piece hp
  cases pieces with
  | nil => cases hp
  | cons piece' pieces =>
    obtain rfl := Option.some.inj hp
    cases piece' with
    | leading text => simp [ink]
    | token t => simp [ink]
    | _ => cases h

end Piece

end GraphQLTree
