import GraphQLTree.Proofs.Layout.Breaks

/-!
# Clean line breaks

A text has **clean** line breaks if, outside strings and comments, spaces keep away from them, two of them
stand in a row in few places only, and three nowhere (`Text.CleanBreaks`). The line breaks of two texts
one behind the other are clean if those of each are (`Text.CleanBreaks.join`). A **block** of pieces starts
on a line of its own, whatever is in front of it (`Piece.IsBlock.spreadText_eq`). The line breaks of a
block are clean if none of its pieces breaks two lines at once (`Piece.IsBlock.clean`), and the text of two
blocks is that of the first and that of the second (`Piece.IsBlock.trimmed_lines`).
-/

namespace GraphQLTree

open Text (endsLine glue outside Solid)

namespace Text

/-- Whether the line breaks of a text are clean. The text doesn't start with a line break and ends with
exactly one. Outside strings and comments, every line break is a line feed, no space is next to one, and
two of them stand in a row only between texts that `between` allows, the line break at the end of the first
one included, with no third one behind them. -/
structure CleanBreaks (text : List Char) (between : List Char → List Char → Prop) : Prop where
  start : text.head? ≠ some '\n'
  finish : ∃ init, text = init ++ ['\n'] ∧ init.getLast? ≠ some '\n'
  feeds : some '\r' ∉ outside text
  tidy : (outside text).IsChain Tidy
  double : ∀ p q, outside text = p ++ some '\n' :: some '\n' :: q →
    between (text.take (p.length + 1)) (text.drop (p.length + 2)) ∧ q.head? ≠ some (some '\n')

/-- Two line breaks in a row, in two texts with no line break or one between them: the first of the two
is the end of the first text and the second is what stands between, or both are in the second text. -/
private theorem exists_of_double {x e y p q : List (Option Char)}
    (h : x ++ (e ++ y) = p ++ some '\n' :: some '\n' :: q) (he : e = [] ∨ e = [some '\n'])
    (hy : y.head? ≠ some (some '\n')) (hx : ∀ q, x ≠ p ++ some '\n' :: some '\n' :: q) :
    e = [some '\n'] ∧ x = p ++ [some '\n'] ∧ q = y ∨
      ∃ p', p = x ++ (e ++ p') ∧ y = p' ++ some '\n' :: some '\n' :: q := by
  have hbehind {a : List (Option Char)} (ha : e ++ y = a ++ some '\n' :: some '\n' :: q) :
      ∃ p', a = e ++ p' ∧ y = p' ++ some '\n' :: some '\n' :: q := by
    rcases he with rfl | rfl
    · exact ⟨a, rfl, ha⟩
    · cases a with
      | nil =>
        obtain ⟨-, hyq⟩ := List.cons.inj ha
        exact absurd (congrArg List.head? hyq) hy
      | cons d a =>
        obtain ⟨hd, hya⟩ := List.cons.inj ha
        exact ⟨a, by simp [hd], hya⟩
  rcases List.append_eq_append_iff.1 h with ⟨a, rfl, ha⟩ | ⟨c, rfl, hc⟩
  · obtain ⟨p', rfl, hp'⟩ := hbehind ha
    exact .inr ⟨p', rfl, hp'⟩
  · rcases c with _ | ⟨d, _ | ⟨d', c⟩⟩
    · obtain ⟨p', hp', hy'⟩ := hbehind (a := []) hc.symm
      refine .inr ⟨p', ?_, hy'⟩
      rw [← hp', List.append_nil, List.append_nil]
    · obtain ⟨rfl, hrest⟩ := List.cons.inj hc
      rcases he with rfl | rfl
      · exact absurd (congrArg List.head? hrest).symm hy
      · exact .inl ⟨rfl, rfl, (List.cons.inj hrest).2⟩
    · obtain ⟨rfl, hrest⟩ := List.cons.inj hc
      obtain ⟨rfl, -⟩ := List.cons.inj hrest
      exact absurd rfl (hx c)

namespace CleanBreaks

variable {x y extra : List Char} {between between' : List Char → List Char → Prop}

theorem mono (h : CleanBreaks x between)
    (himp : ∀ before after, between before after → between' before after) :
    CleanBreaks x between' :=
  { h with double := fun p q hpq => (h.double p q hpq).imp_left (himp _ _) }

/-- A text that ends its line with no two line breaks in a row, and a text behind it, with no line break
between them or one. -/
theorem join (hx : CleanBreaks x fun _ _ => False) (hy : CleanBreaks y between)
    (hextra : extra = [] ∨ extra = ['\n'])
    (houtside : outside (x ++ (extra ++ y)) = outside x ++ (extra.map some ++ outside y))
    (hends : (outside x).getLast? = some (some '\n')) (hstarts : ∀ a ∈ (outside y).head?, Solid a) :
    CleanBreaks (x ++ (extra ++ y)) fun before after =>
      extra = ['\n'] ∧ before = x ∧ after = y ∨
        ∃ before', before = x ++ (extra ++ before') ∧ between before' after where
  start := by
    obtain ⟨init, hinit, -⟩ := hx.finish
    rw [List.head?_append_of_ne_nil _ (by simp [hinit])]
    exact hx.start
  finish := by
    obtain ⟨init, rfl, hlast⟩ := hy.finish
    refine ⟨x ++ (extra ++ init), by simp, ?_⟩
    have hne : init ≠ [] := by
      rintro rfl
      exact hy.start rfl
    rwa [← List.append_assoc, List.getLast?_append_of_ne_nil _ hne]
  feeds := by
    have hextra' : some '\r' ∉ extra.map some := by
      rcases hextra with rfl | rfl <;> decide
    rw [houtside, List.mem_append, List.mem_append]
    exact fun h => h.elim hx.feeds fun h => h.elim hextra' hy.feeds
  tidy := by
    have hbehind : (extra.map some ++ outside y).IsChain Tidy ∧
        ∀ b ∈ (extra.map some ++ outside y).head?, Solid b ∨ b = some '\n' := by
      rcases hextra with rfl | rfl
      · exact ⟨hy.tidy, fun b hb => .inl (hstarts b hb)⟩
      · exact ⟨List.isChain_cons.2 ⟨fun b hb => (hstarts b hb).tight_right.1, hy.tidy⟩,
          fun b hb => .inr (Option.some.inj hb).symm⟩
    rw [houtside]
    refine List.isChain_append.2 ⟨hx.tidy, hbehind.1, fun a ha b hb => ?_⟩
    obtain rfl : some '\n' = a := Option.some.inj (hends.symm.trans ha)
    rcases hbehind.2 b hb with hsolid | rfl
    · exact hsolid.tight_right.1
    · simp [Tidy]
  double := by
    intro p q hpq
    have hy' : (outside y).head? ≠ some (some '\n') := fun h => (hstarts _ h).2 rfl
    have hmap : extra.map some = [] ∨ extra.map some = [some '\n'] :=
      hextra.imp (fun h => by simp [h]) fun h => by simp [h]
    rw [houtside] at hpq
    rcases exists_of_double hpq hmap hy' fun q hxq => (hx.double p q hxq).1 with
      ⟨he, hxp, rfl⟩ | ⟨p', rfl, hyp⟩
    · obtain rfl : extra = ['\n'] := hextra.resolve_left fun h => by simp [h] at he
      have hlength : x.length = p.length + 1 := by
        rw [← length_outside, hxp, List.length_append, List.length_singleton]
      refine ⟨.inl ⟨rfl, by rw [← hlength, List.take_left], ?_⟩, hy'⟩
      rw [← List.append_assoc]
      exact List.drop_left' (by simp [hlength])
    · obtain ⟨hbetween, hthird⟩ := hy.double p' q hyp
      have hlength : (outside x ++ (extra.map some ++ p')).length =
          (x ++ extra).length + p'.length := by
        simp only [List.length_append, length_outside, List.length_map]
        omega
      refine ⟨.inr ⟨y.take (p'.length + 1), ?_, ?_⟩, hthird⟩
      · rw [hlength, ← List.append_assoc, Nat.add_assoc, List.take_length_add_append,
          List.append_assoc]
      · rwa [hlength, ← List.append_assoc, Nat.add_assoc, List.drop_length_add_append]

end CleanBreaks

/-- A neat gap that ends its line ends with its only line break. -/
theorem IsNeat.exists_of_endsLine {gap : List Char} (h : IsNeat gap) (hends : endsLine gap = true) :
    ∃ front, gap = front ++ ['\n'] ∧ IsFlat front := by
  cases h with
  | flat hfront =>
    rw [hfront.endsLine] at hends
    cases hends
  | broken hfront hlast => exact ⟨_, rfl, hfront⟩

theorem IsFlat.return_notMem {gap : List Char} (h : IsFlat gap) : '\r' ∉ gap :=
  fun hmem => by simpa using h '\r' hmem

theorem IsNeat.return_notMem {gap : List Char} (h : IsNeat gap) : '\r' ∉ gap := by
  cases h with
  | flat hfront => exact hfront.return_notMem
  | broken hfront hlast => simpa using hfront.return_notMem

end Text

/-! ### Strokes -/

/-- A sound token doesn't end with a line break. -/
theorem Token.Sound.getLast?_ne {token : Token} (h : token.Sound) :
    token.write.getLast? ≠ some '\n' := by
  intro hlast
  cases token with
  | comment text =>
    rcases List.mem_cons.1 (List.mem_of_getLast? hlast) with hsign | hmem
    · cases hsign
    · cases h '\n' hmem
  | _ => cases Token.Known.getLast? (.inl h) rfl '\n' hlast

namespace Stroke

/-- Strokes end with their last token. -/
theorem getLast?_flat_ne {strokes : List Stroke} (hsound : ∀ stroke ∈ strokes, stroke.token.Sound) :
    (flat strokes).getLast? ≠ some '\n' := by
  rcases List.eq_nil_or_concat' strokes with rfl | ⟨init, stroke, rfl⟩
  · simp [flat]
  · have htoken := hsound stroke (by simp)
    obtain ⟨c, l, hwrite, -⟩ := Token.Known.exists_cons (.inl htoken)
    have hflat : flat (init ++ [stroke]) = flat init ++ stroke.gap ++ stroke.token.write := by
      simp [flat, text]
    rw [hflat, List.getLast?_append_of_ne_nil _ (by simp [hwrite])]
    exact htoken.getLast?_ne

theorem return_notMem_outside {strokes : List Stroke} (hgaps : ∀ stroke ∈ strokes, Text.IsNeat stroke.gap)
    (hsound : ∀ stroke ∈ strokes, stroke.token.Sound) : some '\r' ∉ strokes.flatMap outside := by
  intro hmem
  obtain ⟨stroke, hstroke, hmem⟩ := List.mem_flatMap.1 hmem
  rcases List.mem_append.1 hmem with hgap | hmask
  · exact (hgaps stroke hstroke).return_notMem (by simpa using hgap)
  · cases (hsound stroke hstroke).mask_not_ignored hmask

end Stroke

/-! ### Blocks -/

namespace Piece

variable (pretty : Bool) {gap : List Char} {pieces a b : List Piece}

/-- The text of pieces without the line breaks in front of it. -/
def trimmed (pieces : List Piece) : List Char :=
  (render pretty pieces).dropWhile (· == '\n')

/-- Anchored pieces behind a line break have no other gap in front of their first token. -/
theorem Anchored.exists_spread (h : Anchored pieces) (hsound : Sound pieces) :
    ∃ token strokes last, token.Sound ∧
      (∀ gap, endsLine gap = true → spread pretty gap pieces = (⟨gap, token⟩ :: strokes, last)) ∧
      trimmed pretty pieces = token.write ++ (Stroke.flat strokes ++ last) := by
  cases pieces with
  | nil => cases h
  | cons piece pieces =>
    have hfirst : ∃ token, piece.ink = some token ∧ token.Sound ∧
        (∀ gap, endsLine gap = true → glue gap (piece.before pretty) = gap) ∧
        ∀ c ∈ glue [] (piece.before pretty), c = '\n' := by
      have hpiece := hsound.cons.1
      cases piece with
      | leading text =>
        have hafter : Text.afterBreak ['\n'] = [] := rfl
        refine ⟨_, rfl, hpiece, fun gap hgap => ?_, by simp [before]⟩
        rw [before, Text.glue_of_endsLine hgap, hafter, List.append_nil]
      | token t => exact ⟨t, rfl, hpiece.1, fun gap _ => Text.glue_nil gap, by simp [before]⟩
      | _ => cases h
    obtain ⟨token, hink, htoken, hgap, hbreaks⟩ := hfirst
    obtain ⟨c, l, hwrite, hc⟩ := Token.Known.exists_cons (.inl htoken)
    refine ⟨token, (spread pretty piece.behind pieces).1, (spread pretty piece.behind pieces).2,
      htoken, fun gap hends => ?_, ?_⟩
    · rw [spread_ink hink, hgap gap hends]
    · have hhead : (c == '\n') = false := by
        rw [beq_eq_false_iff_ne]
        rintro rfl
        cases hc
      rw [trimmed, render_eq_spreadText hsound.known, spreadText_ink hink, List.append_assoc,
        List.dropWhile_append_of_pos (by simpa using hbreaks), hwrite, List.cons_append,
        List.dropWhile_cons_of_neg (by simp [hhead])]
      rfl

/-- Whether pieces make a block: they start with a token or a comment that begins a line, and no token of
them runs into the next one. -/
structure IsBlock (pieces : List Piece) : Prop where
  anchored : Anchored pieces
  sound : Sound pieces
  spaced : Spaced .clear pieces

/-- What stands between two definitions besides the line break at the end of the first one. -/
def extraBreak : List Char :=
  if pretty then ['\n'] else []

namespace IsBlock

theorem head?_trimmed (pieces : List Piece) : (trimmed pretty pieces).head? ≠ some '\n' := by
  intro hhead
  have hnot := List.head?_dropWhile_not (· == '\n') (render pretty pieces)
  rw [← trimmed, hhead] at hnot
  cases hnot

/-- The strokes of a block behind a line break, with what is in front of the first token left out, are
those of its text. -/
theorem exists_strokes (h : IsBlock pieces) :
    ∃ token strokes last, token.Sound ∧
      (∀ gap, endsLine gap = true → spread pretty gap pieces = (⟨gap, token⟩ :: strokes, last)) ∧
      trimmed pretty pieces = token.write ++ (Stroke.flat strokes ++ last) ∧
      outside (trimmed pretty pieces) =
        token.mask token.write ++ (strokes.flatMap Stroke.outside ++ last.map some) := by
  obtain ⟨token, strokes, last, htoken, hspread, htrimmed⟩ := h.anchored.exists_spread pretty h.sound
  have hbreak : IsGap ['\n'] := List.forall_mem_singleton.2 rfl
  have hscanned : outside (spreadText pretty ['\n'] pieces) = spreadOutside pretty ['\n'] pieces :=
    outside_spreadText hbreak h.spaced h.sound
  have htext : spreadText pretty ['\n'] pieces = '\n' :: trimmed pretty pieces := by
    rw [spreadText, hspread _ rfl, htrimmed]
    simp [Stroke.flat, Stroke.text]
  rw [htext, Text.outside_cons rfl, spreadOutside, hspread _ rfl] at hscanned
  exact ⟨token, strokes, last, htoken, hspread, htrimmed, by simpa [Stroke.outside] using hscanned⟩

/-- Behind a line break, a block is written as it is. -/
theorem spreadText_eq (h : IsBlock pieces) (hgap : endsLine gap = true) :
    spreadText pretty gap pieces = gap ++ trimmed pretty pieces := by
  obtain ⟨token, strokes, last, -, hspread, htrimmed, -⟩ := h.exists_strokes pretty
  rw [spreadText, hspread gap hgap, htrimmed]
  simp [Stroke.flat, Stroke.text]

/-- Behind a line break, what is outside strings and comments in a block is what is outside in its
text. -/
theorem spreadOutside_eq (h : IsBlock pieces) (hgap : endsLine gap = true) :
    spreadOutside pretty gap pieces = gap.map some ++ outside (trimmed pretty pieces) := by
  obtain ⟨token, strokes, last, -, hspread, -, houtside⟩ := h.exists_strokes pretty
  rw [spreadOutside, hspread gap hgap, houtside]
  simp [Stroke.outside]

/-- The text of a block starts with neither a space nor a line break. -/
theorem solid_head (h : IsBlock pieces) :
    ∀ x ∈ (outside (trimmed pretty pieces)).head?, Solid x := by
  obtain ⟨token, strokes, last, htoken, -, -, houtside⟩ := h.exists_strokes pretty
  intro x hx
  rw [houtside, List.head?_append_of_ne_nil _ htoken.mask_ne_nil] at hx
  exact htoken.solid_mask x (List.mem_of_mem_head? hx)

/-- The text of a block behind a block. -/
theorem trimmed_lines (ha : IsBlock (a ++ [.lines 1 1])) (hb : IsBlock b)
    (hab : IsBlock (a ++ .lines 1 2 :: b)) :
    trimmed pretty (a ++ .lines 1 2 :: b) =
        trimmed pretty (a ++ [.lines 1 1]) ++ (extraBreak pretty ++ trimmed pretty b) ∧
      outside (trimmed pretty (a ++ .lines 1 2 :: b)) =
        outside (trimmed pretty (a ++ [.lines 1 1])) ++
          ((extraBreak pretty).map some ++ outside (trimmed pretty b)) := by
  have htwo (gap : List Char) : put pretty gap (.lines 1 2) = glue gap ['\n'] ++ extraBreak pretty := by
    cases pretty with
    | false => exact (List.append_nil _).symm
    | true => exact Text.glue_lineFeeds gap
  have hends (gap : List Char) : endsLine (glue gap ['\n'] ++ extraBreak pretty) = true := by
    cases pretty with
    | false => exact (congrArg endsLine (List.append_nil _)).trans (Text.endsLine_glue_lineFeed gap)
    | true => exact Text.endsLine_broken _
  -- Behind a line break, the first block and the line break at its end are spread over the same strokes
  -- and the same gap on both sides.
  constructor
  · have hfirst : spreadText pretty ['\n'] _ = _ := ha.spreadText_eq pretty rfl
    have hboth : spreadText pretty ['\n'] _ = _ := hab.spreadText_eq pretty rfl
    rw [spreadText_append, spreadText_space rfl, put_lines, spreadText_nil] at hfirst
    rw [spreadText_append, spreadText_space rfl, htwo, hb.spreadText_eq pretty (hends _),
      List.append_assoc, ← List.append_assoc (Stroke.flat _), hfirst] at hboth
    simpa using hboth.symm
  · have hfirst : spreadOutside pretty ['\n'] _ = _ := ha.spreadOutside_eq pretty rfl
    have hboth : spreadOutside pretty ['\n'] _ = _ := hab.spreadOutside_eq pretty rfl
    rw [spreadOutside_append, spreadOutside_space rfl, put_lines, spreadOutside_nil] at hfirst
    rw [spreadOutside_append, spreadOutside_space rfl, htwo, hb.spreadOutside_eq pretty (hends _),
      List.map_append, List.append_assoc, ← List.append_assoc (List.flatMap _ _), hfirst] at hboth
    simpa using hboth.symm

/-- What ends with a line break and comments ends its line. -/
theorem endsLine_spread {comments : List Piece}
    (hcomments : ∀ piece ∈ comments, ∃ text, piece = .leading text) (gap : List Char)
    (a : List Piece) : endsLine (spread pretty gap (a ++ .lines 1 1 :: comments)).2 = true := by
  have htail {gap : List Char} (hgap : endsLine gap = true) :
      endsLine (spread pretty gap comments).2 = true := by
    induction comments generalizing gap with
    | nil => exact hgap
    | cons piece comments ih =>
      obtain ⟨⟨text, rfl⟩, htail⟩ := List.forall_mem_cons.1 hcomments
      rw [spread_ink rfl]
      exact ih htail rfl
  rw [spread_append, spread_space rfl, put_lines]
  exact htail (Text.endsLine_glue_lineFeed _)

section Clean

variable {comments : List Piece} (hcomments : ∀ piece ∈ comments, ∃ text, piece = .leading text)
  (hbreaks : ∀ piece ∈ a, piece.breaks pretty ≤ 1)
include hcomments hbreaks

private theorem breaks_le : ∀ piece ∈ a ++ .lines 1 1 :: comments, piece.breaks pretty ≤ 1 := by
  refine List.forall_mem_append.2 ⟨hbreaks, List.forall_mem_cons.2 ⟨by cases pretty <;> decide, ?_⟩⟩
  intro piece hpiece
  obtain ⟨text, rfl⟩ := hcomments piece hpiece
  exact Nat.zero_le 1

variable (h : IsBlock (a ++ .lines 1 1 :: comments))
include h

/-- The strokes of a block that ends with a line break and comments: between them, the gaps are neat, and
there is nothing but spaces and commas in front of the line break at the end. -/
theorem exists_neat_strokes :
    ∃ (token : Token) (strokes : List Stroke) (front : List Char), token.Sound ∧
      (∀ stroke ∈ strokes, Text.IsNeat stroke.gap) ∧
      (∀ stroke ∈ strokes, stroke.token.Sound) ∧ Text.IsFlat front ∧
      trimmed pretty (a ++ .lines 1 1 :: comments) =
        token.write ++ (Stroke.flat strokes ++ front) ++ ['\n'] ∧
      outside (trimmed pretty (a ++ .lines 1 1 :: comments)) =
        token.mask token.write ++ (strokes.flatMap Stroke.outside ++ front.map some) ++
          [some '\n'] := by
  have hneat : Text.IsNeat ['\n'] := Text.IsNeat.nil.glue_lineFeed
  have hlast := endsLine_spread pretty hcomments ['\n'] a
  obtain ⟨hgaps, hend⟩ := isNeat_spread hneat (breaks_le pretty hcomments hbreaks)
  have hsound : ∀ stroke ∈ (spread pretty ['\n'] _).1, stroke.token.Sound := sound_spread h.sound _
  obtain ⟨token, strokes, last, htoken, hspread, htrimmed, houtside⟩ := h.exists_strokes pretty
  rw [hspread _ rfl] at hlast hgaps hend hsound
  obtain ⟨front, rfl, hfront⟩ := hend.exists_of_endsLine hlast
  refine ⟨token, strokes, front, htoken, (List.forall_mem_cons.1 hgaps).2,
    (List.forall_mem_cons.1 hsound).2, hfront, by simp [htrimmed], by simp [houtside]⟩

/-- The line breaks of a block that ends with a line break and comments are clean, if none of its pieces
breaks two lines at once. No two of them stand in a row then. -/
theorem clean :
    Text.CleanBreaks (trimmed pretty (a ++ .lines 1 1 :: comments)) (fun _ _ => False) ∧
      (outside (trimmed pretty (a ++ .lines 1 1 :: comments))).getLast? = some (some '\n') := by
  have htight := isChain_spreadOutside Text.IsNeat.nil.glue_lineFeed h.sound
    (breaks_le pretty hcomments hbreaks)
  rw [h.spreadOutside_eq pretty rfl] at htight
  obtain ⟨token, strokes, front, htoken, hgaps, hsound, hfront, htrimmed, houtside⟩ :=
    exists_neat_strokes pretty hcomments hbreaks h
  refine ⟨⟨head?_trimmed pretty _, ⟨_, htrimmed, ?_⟩, ?_, htight.tail.imp fun _ _ h => h.1, ?_⟩,
    by rw [houtside, List.getLast?_concat]⟩
  · -- In front of the line break at the end, there are spaces and commas or there is a token.
    rcases List.eq_nil_or_concat' front with rfl | ⟨init, c, rfl⟩
    · have hflat : token.write ++ Stroke.flat strokes = Stroke.flat (⟨[], token⟩ :: strokes) := by
        simp [Stroke.flat, Stroke.text]
      rw [List.append_nil, hflat]
      exact Stroke.getLast?_flat_ne (List.forall_mem_cons.2 ⟨htoken, hsound⟩)
    · rw [← List.append_assoc, ← List.append_assoc, List.getLast?_concat]
      intro hlast
      obtain rfl := Option.some.inj hlast
      exact hfront.lineFeed_notMem (by simp)
  · rw [houtside]
    simp only [List.mem_append, not_or]
    refine ⟨⟨fun hmask => ?_, Stroke.return_notMem_outside hgaps hsound, fun hmem => ?_⟩, by simp⟩
    · cases htoken.mask_not_ignored hmask
    · exact hfront.return_notMem (by simpa using hmem)
  · intro p q hpq
    exact absurd ⟨rfl, rfl⟩ (List.isChain_iff_forall_rel_of_append_cons_cons.1 htight.tail hpq).2

end Clean

end IsBlock

end Piece

end GraphQLTree
