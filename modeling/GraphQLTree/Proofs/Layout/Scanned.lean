import GraphQLTree.Proofs.Layout.Piece

/-!
# Scanning rendered pieces

The text of pieces is spread over **strokes**: each is a token with the gap in front of it. Gluing
only ever changes the last gap, so a stroke is settled once its token is written (`putAll_append_eq`).
Pieces are **spaced** when no token runs into the next one. The scraps of the text of spaced pieces
are their strokes (`scanAll_render`), and its words are those of the pieces (`ofText_render`).
-/

namespace GraphQLTree

open Text (endsLine glue trimSpaces)

/-- A token with the gap in front of it. -/
structure Stroke where
  gap : List Char
  token : Token

namespace Stroke

/-- A stroke as it is written. -/
def text (stroke : Stroke) : List Char :=
  stroke.gap ++ stroke.token.write

/-- The scrap that a stroke is scanned as. -/
def scrap (stroke : Stroke) : Scrap :=
  ⟨stroke.gap, stroke.token.rescanned, stroke.token.write⟩

/-- The text of strokes. -/
def flat (strokes : List Stroke) : List Char :=
  strokes.flatMap text

end Stroke

namespace Piece

/-- What is glued to the gap in front of a piece's token. -/
def before (pretty : Bool) : Piece → List Char
  | leading _ => ['\n']
  | trailing _ => softSpace pretty
  | _ => []

/-- What stands behind a piece's token. -/
def behind : Piece → List Char
  | leading _ => ['\n']
  | trailing _ => ['\n']
  | _ => []

/-- The strokes of pieces behind a gap, and the gap at their end. -/
def spread (pretty : Bool) : List Char → List Piece → List Stroke × List Char
  | gap, [] => ([], gap)
  | gap, piece :: pieces =>
    match piece.ink with
    | none => spread pretty (put pretty gap piece) pieces
    | some t =>
      let rest := spread pretty piece.behind pieces
      (⟨glue gap (piece.before pretty), t⟩ :: rest.1, rest.2)

/-- The text of pieces behind a gap. -/
def spreadText (pretty : Bool) (gap : List Char) (pieces : List Piece) : List Char :=
  Stroke.flat (spread pretty gap pieces).1 ++ (spread pretty gap pieces).2

variable {pretty : Bool}

theorem spread_space {piece : Piece} (h : piece.ink = none) (gap : List Char)
    (pieces : List Piece) :
    spread pretty gap (piece :: pieces) = spread pretty (put pretty gap piece) pieces := by
  rw [spread, h]

theorem spread_ink {piece : Piece} {t : Token} (h : piece.ink = some t) (gap : List Char)
    (pieces : List Piece) :
    spread pretty gap (piece :: pieces) =
      (⟨glue gap (piece.before pretty), t⟩ :: (spread pretty piece.behind pieces).1,
        (spread pretty piece.behind pieces).2) := by
  rw [spread, h]

theorem spreadText_space {piece : Piece} (h : piece.ink = none) (gap : List Char)
    (pieces : List Piece) :
    spreadText pretty gap (piece :: pieces) = spreadText pretty (put pretty gap piece) pieces := by
  rw [spreadText, spread_space h]
  rfl

theorem spreadText_ink {piece : Piece} {t : Token} (h : piece.ink = some t)
    (gap : List Char) (pieces : List Piece) :
    spreadText pretty gap (piece :: pieces) =
      glue gap (piece.before pretty) ++ t.write ++ spreadText pretty piece.behind pieces := by
  rw [spreadText, spread_ink h]
  simp [spreadText, Stroke.flat, Stroke.text]

/-! ### Only the last gap changes -/

/-- Whether the gap behind a text can be told from the text. -/
def Detached (out gap : List Char) : Prop :=
  gap.head? = some '\n' ∨ ∀ c ∈ out.getLast?, c ≠ ' ' ∧ c ≠ '\n'

theorem endsLine_detached {out gap : List Char} (h : Detached out gap) :
    endsLine (out ++ gap) = endsLine gap := by
  by_cases hgap : gap = []
  · subst hgap
    have hout := h.resolve_left (by simp)
    rw [List.append_nil]
    simp only [endsLine, List.getLast?_nil]
    cases hlast : out.getLast? with
    | none => rfl
    | some c => simp [(hout c hlast).2]
  · exact Text.endsLine_append hgap

theorem trimSpaces_eq_self {out : List Char} (h : ∀ c ∈ out.getLast?, c ≠ ' ') :
    trimSpaces out = out := by
  unfold trimSpaces Text.dropSpaces
  cases hrev : out.reverse with
  | nil => rw [List.reverse_eq_nil_iff.1 hrev]; rfl
  | cons c l =>
    have hc : c ≠ ' ' := h c (by rw [← List.head?_reverse, hrev]; rfl)
    rw [List.dropWhile_cons_of_neg (by simpa using hc), ← hrev, List.reverse_reverse]

theorem trimSpaces_detached {out gap : List Char} (h : Detached out gap) :
    trimSpaces (out ++ gap) = out ++ trimSpaces gap := by
  rw [Text.trimSpaces_append]
  split
  · next hgap =>
    rw [hgap, List.append_nil]
    rcases h with h | h
    · obtain ⟨l, rfl⟩ := List.head?_eq_some_iff.1 h
      rw [Text.trimSpaces_cons, if_neg (by simp)] at hgap
      cases hgap
    · exact trimSpaces_eq_self fun c hc => (h c hc).1
  · rfl

theorem glue_detached {out gap : List Char} (h : Detached out gap) (text : List Char) :
    glue (out ++ gap) text = out ++ glue gap text := by
  unfold glue
  rw [endsLine_detached h, trimSpaces_detached h]
  split
  · rw [List.append_assoc]
  · split <;> rw [List.append_assoc]

theorem put_detached {out gap : List Char} (h : Detached out gap) (piece : Piece) :
    put pretty (out ++ gap) piece = out ++ put pretty gap piece := by
  unfold put
  rw [endsLine_detached h, glue_detached h]
  split <;> rfl

theorem afterBreak_cons {c : Char} (hs : c ≠ ' ') (hn : c ≠ '\n') (l : List Char) :
    Text.afterBreak (c :: l) = c :: l := by
  rw [Text.afterBreak, Text.dropSpaces_cons_of_ne hs, Text.dropLineFeed_cons_of_ne hn]

/-- What is glued ends as it is from its first character with ink on. -/
theorem glue_append_cons {c : Char} (hs : c ≠ ' ') (hn : c ≠ '\n') (out text l : List Char) :
    glue out (text ++ c :: l) = glue out text ++ c :: l := by
  cases hout : endsLine out with
  | true =>
    rw [Text.glue_of_endsLine hout, Text.glue_of_endsLine hout, Text.afterBreak_append]
    split
    · next hd =>
      rw [afterBreak_cons hs hn, Text.afterBreak, hd]
      simp [Text.dropLineFeed]
    · rw [List.append_assoc]
  | false =>
    cases text with
    | nil =>
      rw [List.nil_append, Text.glue_nil, Text.glue_of_head?_ne hout (by simpa using hn)]
    | cons d text =>
      by_cases hd : d = '\n'
      · subst hd
        rw [List.cons_append, Text.glue_lineFeed hout, Text.glue_lineFeed hout]
        simp
      · rw [List.cons_append, Text.glue_of_head?_ne hout (by simpa using hd),
          Text.glue_of_head?_ne hout (by simpa using hd)]
        simp

theorem text_eq {piece : Piece} {t : Token} (h : piece.ink = some t) :
    piece.text pretty = piece.before pretty ++ t.write ++ piece.behind := by
  cases piece with
  | leading text => obtain rfl := Option.some.inj h; rfl
  | trailing text =>
    obtain rfl := Option.some.inj h
    simp [Piece.text, before, behind, Token.write]
  | token t => obtain rfl := Option.some.inj h; simp [Piece.text, before, behind]
  | _ => cases h

theorem put_ink {piece : Piece} {t : Token} (h : piece.ink = some t) (hknown : t.Known)
    (gap : List Char) :
    put pretty gap piece = glue gap (piece.before pretty) ++ t.write ++ piece.behind := by
  obtain ⟨c, l, hcl, hc⟩ := hknown.exists_cons
  have hs : c ≠ ' ' := by rintro rfl; cases hc
  have hn : c ≠ '\n' := by rintro rfl; cases hc
  have hne : piece ≠ comma := by rintro rfl; cases h
  simp only [put, hne, decide_false, Bool.false_and, Bool.false_eq_true, if_false]
  rw [text_eq h, hcl, List.append_assoc, List.cons_append, glue_append_cons hs hn]
  simp

theorem head?_glue {gap : List Char} (h : gap.head? = some '\n') (text : List Char) :
    (glue gap text).head? = some '\n' := by
  obtain ⟨l, rfl⟩ := List.head?_eq_some_iff.1 h
  have htrim : trimSpaces ('\n' :: l) = '\n' :: trimSpaces l := by
    rw [Text.trimSpaces_cons, if_neg (by simp)]
  unfold glue
  rw [htrim]
  split
  · rfl
  · split <;> rfl

theorem head?_put {gap : List Char} (h : gap.head? = some '\n') (piece : Piece) :
    (put pretty gap piece).head? = some '\n' := by
  unfold put
  split
  · exact h
  · exact head?_glue h _

/-- Pieces are put behind a text by spreading them behind its last gap. -/
theorem putAll_append_eq {out gap : List Char} {pieces : List Piece} (h : Detached out gap)
    (hknown : Known pieces) :
    putAll pretty (out ++ gap) pieces = out ++ spreadText pretty gap pieces := by
  induction pieces generalizing out gap with
  | nil => simp [putAll, spreadText, spread, Stroke.flat]
  | cons piece pieces ih =>
    obtain ⟨hpiece, hknown⟩ := hknown.cons
    rw [putAll, List.foldl_cons, put_detached h]
    change putAll pretty (out ++ put pretty gap piece) pieces = _
    cases hink : piece.ink with
    | none =>
      rw [spreadText_space hink, ih (h.imp (head?_put · piece) id) hknown]
    | some t =>
      have ht := hpiece.ink hink
      have hdetached : Detached (out ++ (glue gap (piece.before pretty) ++ t.write))
          piece.behind := by
        cases piece with
        | leading text => exact .inl rfl
        | trailing text => exact .inl rfl
        | token t' =>
          obtain rfl := Option.some.inj hink
          obtain ⟨c, l, hcl, -⟩ := ht.exists_cons
          obtain ⟨e, he⟩ : ∃ e, t'.write.getLast? = some e :=
            ⟨(c :: l).getLast (by simp), by rw [hcl, List.getLast?_eq_some_getLast]⟩
          have hlast := ht.getLast? hpiece.2 e he
          refine .inr fun d hd => ?_
          rw [← List.append_assoc, List.getLast?_append, he] at hd
          obtain rfl := Option.some.inj hd
          constructor <;> rintro rfl <;> cases hlast
        | _ => cases hink
      rw [spreadText_ink hink, put_ink hink ht, ← List.append_assoc, ih hdetached hknown]
      simp

theorem render_eq_spreadText {pieces : List Piece} (hknown : Known pieces) :
    render pretty pieces = spreadText pretty [] pieces := by
  have hdetached : Detached [] [] := .inr (by simp)
  exact putAll_append_eq hdetached hknown

end Piece

/-! ### Spacing -/

/-- What a token ends in: something that nothing runs into, a quote, or something that goes on. -/
inductive Tail where
  | firm
  | quoted
  | loose
  deriving DecidableEq

/-- What a token starts with: a punctuator that runs into nothing, a quote, or anything else. -/
inductive Lead where
  | calm
  | quote
  | wordy
  deriving DecidableEq

/-- Whether a token with an end may be followed directly by one with a start. -/
def Tail.admits : Tail → Lead → Bool
  | firm, _ => true
  | quoted, lead => lead != .quote
  | loose, lead => lead == .calm

namespace Token

/-- What a token ends in. -/
def tail : Token → Tail
  | name _ => .loose
  | int _ => .loose
  | float _ => .loose
  | string _ => .quoted
  | _ => .firm

/-- What a token starts with. -/
def lead : Token → Lead
  | punct .ellipsis => .wordy
  | punct _ => .calm
  | string _ => .quote
  | blockString _ => .quote
  | _ => .wordy

theorem startsNumber_of_known {token : Token} (h : token.Known) {text : List Char}
    (hnumber : IsNumber token text) : ∃ c l, token.write = c :: l ∧ startsNumber c = true := by
  rcases h with h | h
  · have hw : token.IsWholeNumber := by rcases hnumber with rfl | rfl <;> exact h
    exact startsNumber_of_scanNumber hw.2 hnumber.ne_invalid
  · exact h.start

/-- Only strings start with a quote. -/
theorem Known.head?_ne_quote {token : Token} (h : token.Known) (hlead : token.lead ≠ .quote) :
    token.write.head? ≠ some '"' := by
  have hnumber {text : List Char} (hn : IsNumber token text) : token.write.head? ≠ some '"' := by
    obtain ⟨c, l, hcl, hc⟩ := startsNumber_of_known h hn
    rw [hcl]
    rintro he
    obtain rfl := Option.some.inj he
    cases hc
  cases token with
  | punct p => cases p <;> decide
  | name text =>
    rcases h with h | h
    · cases htext : text.toList with
      | nil => simp [write, htext]
      | cons c l =>
        simp only [Sound, htext] at h
        rw [write, htext]
        rintro he
        obtain rfl := Option.some.inj he
        exact absurd h.1 (by decide)
    · rcases h.number with he | he <;> cases he
  | int text => exact @hnumber text.toList (.inl (by rw [String.ofList_toList]))
  | float text => exact @hnumber text.toList (.inr (by rw [String.ofList_toList]))
  | string value => exact absurd rfl hlead
  | blockString value => exact absurd rfl hlead
  | comment text => simp [write]
  | invalid => simp [write]

/-- Calm punctuators carry on neither names nor numbers. -/
private theorem calm_head {next : Token} (h : next.lead = .calm) :
    ∃ c l, next.write = c :: l ∧ isNamePart c = false ∧ c ≠ '.' ∧ c ≠ '-' ∧ c ≠ '+' := by
  cases next with
  | punct p =>
    cases p <;> first | exact ⟨_, _, rfl, by decide⟩ | cases h
  | _ => cases h

/-- A token may be followed directly by another one that its end admits. -/
theorem parts_of_admits {token next : Token} (hcomment : token.isComment = false)
    (hnext : next.Known) (h : token.tail.admits next.lead = true) (after : List Char) :
    token.Parts (next.write ++ after) := by
  have hcalm : next.lead = .calm →
      ∀ c ∈ (next.write ++ after).head?,
        isNamePart c = false ∧ c ≠ '.' ∧ c ≠ '-' ∧ c ≠ '+' := by
    intro hl c hc
    obtain ⟨d, l, hdl, hd⟩ := calm_head hl
    rw [hdl] at hc
    obtain rfl := Option.some.inj hc
    exact hd
  cases token with
  | punct p => trivial
  | name text => exact fun c hc => (hcalm (by simpa [tail, Tail.admits] using h) c hc).1
  | int text => exact hcalm (by simpa [tail, Tail.admits] using h)
  | float text => exact hcalm (by simpa [tail, Tail.admits] using h)
  | string value =>
    have hhead := hnext.head?_ne_quote (by simpa [tail, Tail.admits] using h)
    obtain ⟨c, l, hcl, -⟩ := hnext.exists_cons
    rw [Parts, hcl]
    rwa [hcl] at hhead
  | blockString value => trivial
  | comment text => cases hcomment
  | invalid => trivial

end Token

/-- What pieces end in, and whether that is directly a token. -/
structure Edge where
  tail : Tail
  direct : Bool
  deriving DecidableEq

/-- The edge in front of which anything may stand. -/
def Edge.clear : Edge := ⟨.firm, false⟩

namespace Piece

/-- The edge behind a piece. -/
def next (edge : Edge) : Piece → Edge
  | soft => ⟨edge.tail, false⟩
  | hard => .clear
  | comma => .clear
  | lines compact loose => if compact = 0 || loose = 0 then ⟨edge.tail, false⟩ else .clear
  | leading _ => ⟨edge.tail, false⟩
  | trailing _ => ⟨edge.tail, false⟩
  | token t => ⟨t.tail, true⟩

/-- Whether a piece may stand behind an edge: a token must not run into the one before, and a
comment behind a token has to be directly behind it. -/
def Fits (edge : Edge) : Piece → Prop
  | token t => edge.tail.admits t.lead = true
  | trailing _ => edge.direct = true
  | _ => True

/-- Whether no token runs into the next one, behind an edge. -/
def Spaced : Edge → List Piece → Prop
  | _, [] => True
  | edge, piece :: pieces => piece.Fits edge ∧ Spaced (piece.next edge) pieces

/-- The edge behind pieces. -/
def edgeBehind (edge : Edge) (pieces : List Piece) : Edge :=
  pieces.foldl next edge

theorem spaced_append {edge : Edge} {a b : List Piece} :
    Spaced edge (a ++ b) ↔ Spaced edge a ∧ Spaced (edgeBehind edge a) b := by
  induction a generalizing edge with
  | nil => simp [Spaced, edgeBehind]
  | cons piece a ih =>
    simp only [List.cons_append, Spaced, ih, edgeBehind, List.foldl_cons, and_assoc]

/-! ### Gaps -/

/-- Whether a gap has ignored characters only. -/
def IsGap (gap : List Char) : Prop :=
  ∀ c ∈ gap, Token.isIgnored c = true

theorem isGap_glue {a b : List Char} (ha : IsGap a) (hb : IsGap b) : IsGap (glue a b) := by
  intro c hc
  unfold glue at hc
  split at hc
  · rcases List.mem_append.1 hc with hc | hc
    · exact ha c hc
    · exact hb c ((Text.afterBreak_suffix b).mem hc)
  · split at hc
    · rcases List.mem_append.1 hc with hc | hc
      · refine ha c ?_
        unfold trimSpaces Text.dropSpaces at hc
        exact List.mem_reverse.1 ((List.dropWhile_suffix _).mem (List.mem_reverse.1 hc))
      · exact hb c hc
    · rcases List.mem_append.1 hc with hc | hc
      · exact ha c hc
      · exact hb c hc

theorem isGap_softSpace : IsGap (softSpace pretty) := by
  cases pretty <;> simp [softSpace, IsGap, Token.isIgnored]

theorem isGap_before (piece : Piece) : IsGap (piece.before pretty) := by
  cases piece with
  | leading text => simp [before, IsGap, Token.isIgnored]
  | trailing text => exact isGap_softSpace
  | _ => simp [before, IsGap]

theorem isGap_behind (piece : Piece) : IsGap piece.behind := by
  cases piece <;> simp [behind, IsGap, Token.isIgnored]

theorem isGap_put {gap : List Char} (h : IsGap gap) {piece : Piece} (hink : piece.ink = none) :
    IsGap (put pretty gap piece) := by
  unfold put
  split
  · exact h
  · refine isGap_glue h ?_
    cases piece with
    | soft => exact isGap_softSpace
    | hard => simp [Piece.text, IsGap, Token.isIgnored]
    | comma => cases pretty <;> simp [Piece.text, softSpace, IsGap, Token.isIgnored]
    | lines compact loose =>
      intro c hc
      obtain rfl := (List.mem_replicate.1 hc).2
      rfl
    | _ => cases hink

theorem glue_ne_nil {gap text : List Char} (h : gap ≠ []) : glue gap text ≠ [] := by
  unfold glue
  split
  · simp [h]
  · split
    · next ht =>
      have : text ≠ [] := by rintro rfl; cases ht
      simp [this]
    · simp [h]

/-- Behind a gap that isn't empty, a text starts with an ignored character. -/
theorem exists_spreadText_of_gap {gap : List Char} (hgap : IsGap gap) (hne : gap ≠ [])
    (pieces : List Piece) :
    ∃ c l, spreadText pretty gap pieces = c :: l ∧ Token.isIgnored c = true := by
  induction pieces generalizing gap with
  | nil =>
    cases gap with
    | nil => exact absurd rfl hne
    | cons c l => exact ⟨c, l, rfl, hgap c (by simp)⟩
  | cons piece pieces ih =>
    cases hink : piece.ink with
    | none =>
      rw [spreadText_space hink]
      refine ih (isGap_put hgap hink) ?_
      unfold put
      split
      · exact hne
      · exact glue_ne_nil hne
    | some t =>
      rw [spreadText_ink hink]
      have hbefore : IsGap (piece.before pretty) := isGap_before piece
      have hglue := isGap_glue hgap hbefore
      cases hg : glue gap (piece.before pretty) with
      | nil => exact absurd hg (glue_ne_nil hne)
      | cons c l => exact ⟨c, _, rfl, hglue c (by simp [hg])⟩

/-- Space that isn't written leaves a token exposed. -/
theorem tail_next_of_put_nil {piece : Piece} (hink : piece.ink = none)
    (hput : put pretty [] piece = []) (edge : Edge) : (piece.next edge).tail = edge.tail := by
  cases piece with
  | soft => rfl
  | hard => simp [put, Piece.text, endsLine] at hput
  | comma => simp [put, Piece.text, endsLine] at hput
  | lines compact loose =>
    have hzero : compact = 0 ∨ loose = 0 := by
      cases pretty <;> simp [put, Piece.text] at hput <;> simp [hput]
    simp [next, hzero]
  | _ => cases hink

/-- Spaced pieces may directly follow the token that their edge is of. -/
theorem parts_spreadText {t : Token} (hcomment : t.isComment = false) {edge : Edge}
    (hedge : edge.tail = t.tail) {gap : List Char} (hgap : IsGap gap) {pieces : List Piece}
    (hspaced : Spaced edge pieces) (hknown : Known pieces) :
    t.Parts (spreadText pretty gap pieces) := by
  have hbehind {gap : List Char} (hgap : IsGap gap) (hne : gap ≠ []) (pieces : List Piece) :
      t.Parts (spreadText pretty gap pieces) := by
    obtain ⟨c, l, hcl, hc⟩ := exists_spreadText_of_gap hgap hne pieces
    rw [hcl]
    exact Token.parts_of_ignored hcomment hc l
  induction pieces generalizing edge gap with
  | nil =>
    cases gap with
    | nil => exact t.parts_nil
    | cons c l => exact Token.parts_of_ignored hcomment (hgap c (by simp)) _
  | cons piece pieces ih =>
    by_cases hne : gap = []
    · subst hne
      obtain ⟨hpiece, hknown⟩ := hknown.cons
      obtain ⟨hfits, hspaced⟩ := hspaced
      cases hink : piece.ink with
      | none =>
        rw [spreadText_space hink]
        by_cases hput : put pretty [] piece = []
        · rw [hput]
          exact ih ((tail_next_of_put_nil hink hput edge).trans hedge) hgap hspaced hknown
        · exact hbehind (isGap_put hgap hink) hput pieces
      | some next =>
        rw [spreadText_ink hink, Text.nil_glue]
        cases piece with
        | leading text => exact Token.parts_of_ignored hcomment rfl _
        | trailing text =>
          obtain rfl := Option.some.inj hink
          cases pretty with
          | true => exact Token.parts_of_ignored hcomment rfl _
          | false => exact Token.parts_of_comment hcomment _
        | token t' =>
          obtain rfl := Option.some.inj hink
          rw [Fits, hedge] at hfits
          exact Token.parts_of_admits hcomment hpiece.1 hfits _
        | _ => cases hink
    · exact hbehind hgap hne _

/-- A comment ends at a line feed. -/
theorem parts_comment_of_lineFeed {text : String} {gap : List Char} (h : gap.head? = some '\n')
    (pieces : List Piece) : (Token.comment text).Parts (spreadText pretty gap pieces) := by
  have hhead : (spreadText pretty gap pieces).head? = some '\n' := by
    induction pieces generalizing gap with
    | nil => simpa [spreadText, spread, Stroke.flat] using h
    | cons piece pieces ih =>
      cases hink : piece.ink with
      | none => rw [spreadText_space hink]; exact ih (head?_put h piece)
      | some t =>
        rw [spreadText_ink hink]
        obtain ⟨l, hl⟩ := List.head?_eq_some_iff.1 (head?_glue h (piece.before pretty))
        rw [hl]
        rfl
  intro c hc
  rw [hhead] at hc
  obtain rfl := Option.some.inj hc
  rfl

/-- The scraps of spaced pieces are their strokes. -/
theorem scanAll_spreadText {gap : List Char} (hgap : IsGap gap) {edge : Edge}
    {pieces : List Piece} (hspaced : Spaced edge pieces) (hknown : Known pieces) :
    Scrap.scanAll (spreadText pretty gap pieces) =
      (spread pretty gap pieces).1.map Stroke.scrap := by
  induction pieces generalizing edge gap with
  | nil =>
    refine Scrap.scanAll_of_none ?_
    have hdrop : gap.dropWhile Token.isIgnored = [] := by
      rw [← List.append_nil gap, List.dropWhile_append_of_pos hgap, List.dropWhile_nil]
    simp [Scrap.next?, spreadText, spread, Stroke.flat, hdrop]
  | cons piece pieces ih =>
    obtain ⟨hpiece, hpieces⟩ := hknown.cons
    obtain ⟨hfits, hspaced⟩ := hspaced
    cases hink : piece.ink with
    | none =>
      rw [spreadText_space hink, spread_space hink]
      exact ih (isGap_put hgap hink) hspaced hpieces
    | some t =>
      have ht := hpiece.ink hink
      have hbefore : IsGap (piece.before pretty) := isGap_before piece
      have hparts : t.Parts (spreadText pretty piece.behind pieces) := by
        cases piece with
        | leading text =>
          obtain rfl := Option.some.inj hink
          exact parts_comment_of_lineFeed rfl pieces
        | trailing text =>
          obtain rfl := Option.some.inj hink
          exact parts_comment_of_lineFeed rfl pieces
        | token t' =>
          obtain rfl := Option.some.inj hink
          exact parts_spreadText hpiece.2 rfl (isGap_behind _) hspaced hpieces
        | _ => cases hink
      obtain ⟨c, l, hcl, hc⟩ := ht.exists_cons
      rw [spreadText_ink hink, spread_ink hink, List.append_assoc, List.map_cons,
        Scrap.scanAll_of_some (Scrap.next?_append (isGap_glue hgap hbefore) (by simp [hcl])
          (by simp [hcl, hc]) (ht.scansFrom hparts)), ih (isGap_behind piece) hspaced hpieces]
      rfl

/-- The scraps of the text of spaced pieces. -/
theorem scanAll_render {pieces : List Piece} (hspaced : Spaced .clear pieces)
    (hknown : Known pieces) :
    Scrap.scanAll (render pretty pieces) = (spread pretty [] pieces).1.map Stroke.scrap := by
  rw [render_eq_spreadText hknown]
  exact scanAll_spreadText (by simp [IsGap]) hspaced hknown

/-! ### Words -/

/-- The words of pieces, and the comments that are left over. The `pending` comments are those since
the last token. -/
def words (pending : List Comment) : List Piece → List Word × List Comment
  | [] => ([], pending)
  | leading text :: pieces => words (pending ++ [⟨false, text⟩]) pieces
  | trailing text :: pieces => words (pending ++ [⟨false, text⟩]) pieces
  | token t :: trailing text :: pieces =>
    Word.put ⟨t, pending ++ [⟨true, text⟩]⟩ (words [] pieces)
  | token t :: pieces => Word.put ⟨t, pending⟩ (words [] pieces)
  | _ :: pieces => words pending pieces

theorem words_token (pending : List Comment) (t : Token) {pieces : List Piece}
    (h : ∀ text rest, pieces ≠ trailing text :: rest) :
    words pending (token t :: pieces) = Word.put ⟨t, pending⟩ (words [] pieces) := by
  rw [words]
  exact fun text rest he => h text rest he

theorem words_space (pending : List Comment) {piece : Piece} (hink : piece.ink = none)
    (pieces : List Piece) : words pending (piece :: pieces) = words pending pieces := by
  cases piece <;> first | rfl | cases hink

theorem direct_next {piece : Piece} (hink : piece.ink = none) (edge : Edge) :
    (piece.next edge).direct = false := by
  cases piece with
  | lines compact loose => simp only [next]; split <;> rfl
  | soft => rfl
  | hard => rfl
  | comma => rfl
  | _ => cases hink

theorem hasLineBreak_glue_lineFeed (gap : List Char) :
    Text.hasLineBreak (glue gap ['\n']) = true := by
  have hmem : '\n' ∈ glue gap ['\n'] := by
    cases hgap : endsLine gap with
    | true =>
      rw [Text.glue_of_endsLine hgap]
      refine List.mem_append_left _ (List.mem_of_getLast? ?_)
      simpa [endsLine] using hgap
    | false =>
      rw [Text.glue_lineFeed hgap]
      exact List.mem_append_right _ (List.mem_singleton.2 rfl)
  exact List.any_eq_true.2 ⟨'\n', hmem, rfl⟩

/-- A comment is on the line of the token before it only when it is directly behind it. -/
theorem inlineText?_spread {gap : List Char} {edge : Edge} {pieces : List Piece}
    (hspaced : Spaced edge pieces) (h : ∀ text rest, pieces ≠ trailing text :: rest)
    (hsound : Sound pieces) :
    inlineText? ((spread pretty gap pieces).1.map Stroke.scrap) = none := by
  induction pieces generalizing gap edge with
  | nil => rfl
  | cons piece pieces ih =>
    obtain ⟨hfits, hspaced⟩ := hspaced
    obtain ⟨hpiece, hpieces⟩ := hsound.cons
    cases hink : piece.ink with
    | none =>
      rw [spread_space hink]
      refine ih hspaced (fun text rest he => ?_) hpieces
      subst he
      have hdirect : (piece.next edge).direct = true := hspaced.1
      rw [direct_next hink] at hdirect
      cases hdirect
    | some t =>
      rw [spread_ink hink]
      cases piece with
      | leading text =>
        obtain rfl := Option.some.inj hink
        exact if_pos (hasLineBreak_glue_lineFeed gap)
      | trailing text => exact absurd rfl (h text pieces)
      | token t' =>
        obtain rfl := Option.some.inj hink
        simp only [List.map_cons, Stroke.scrap, hpiece.1.rescanned]
        cases t' with
        | comment text => cases hpiece.2
        | _ => rfl
      | _ => cases hink

theorem not_comment {t : Token} (h : t.isComment = false) (text : String) :
    t ≠ .comment text := by
  rintro rfl
  cases h

/-- The words of the scraps of spaced pieces are those of the pieces. -/
theorem ofScraps_spread {gap : List Char} {edge : Edge} {pieces : List Piece}
    (hspaced : Spaced edge pieces) (hsound : Sound pieces) (pending : List Comment) :
    Word.ofScraps pending ((spread pretty gap pieces).1.map Stroke.scrap) =
      words pending pieces := by
  fun_induction words pending pieces generalizing gap edge with
  | case1 pending => rfl
  | case2 pending text pieces ih =>
    rw [spread_ink rfl, List.map_cons, Stroke.scrap]
    exact (Word.ofScraps_comment ..).trans (ih hspaced.2 hsound.cons.2)
  | case3 pending text pieces ih =>
    rw [spread_ink rfl, List.map_cons, Stroke.scrap]
    exact (Word.ofScraps_comment ..).trans (ih hspaced.2 hsound.cons.2)
  | case4 pending t text pieces ih =>
    obtain ⟨⟨ht, hcomment⟩, hsound⟩ := hsound.cons
    have hgap : Text.hasLineBreak (glue [] (softSpace pretty)) = false := by
      cases pretty <;> rfl
    rw [spread_ink rfl, spread_ink rfl, ← ih hspaced.2.2 hsound.cons.2]
    simp only [List.map_cons, Stroke.scrap, ht.rescanned]
    exact Word.ofScraps_inline _ (not_comment hcomment) ht.ne_invalid hgap ..
  | case5 pending t pieces h ih =>
    obtain ⟨⟨ht, hcomment⟩, hsound⟩ := hsound.cons
    rw [spread_ink rfl, ← ih hspaced.2 hsound]
    simp only [List.map_cons, Stroke.scrap, ht.rescanned]
    exact Word.ofScraps_token _ (not_comment hcomment)
      (.inr (inlineText?_spread hspaced.2 (fun text rest he => h text rest he) hsound)) ..
  | case6 pending piece pieces h1 h2 h3 h4 ih =>
    have hink : piece.ink = none := by
      cases piece with
      | leading text => exact (h1 text rfl).elim
      | trailing text => exact (h2 text rfl).elim
      | token t => exact (h4 t rfl).elim
      | _ => rfl
    rw [spread_space hink]
    exact ih hspaced.2 hsound.cons.2

/-- The words of the text of spaced pieces. -/
theorem ofText_render {pieces : List Piece} (hspaced : Spaced .clear pieces)
    (hsound : Sound pieces) : Word.ofText (render pretty pieces) = words [] pieces := by
  rw [Word.ofText, scanAll_render hspaced hsound.known]
  exact ofScraps_spread hspaced hsound []

end Piece

end GraphQLTree
