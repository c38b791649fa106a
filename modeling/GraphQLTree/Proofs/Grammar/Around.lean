import GraphQLTree.Proofs.Grammar.Slots
import GraphQLTree.Proofs.Layout.Scanned
import GraphQLTree.Proofs.Layout.Styled

/-!
# Comments around pieces

A printer puts comments around a text, and a derivation puts their pieces around other pieces
(`around`). Both are the same text (`attachComments_eq`). Pieces stay anchored and known when comments
are put around them.
-/

namespace GraphQLTree

open Text (endsLine glue)

/-! ### Comments -/

/-- A child with its text. -/
def Node.printed (style : Style) (parent : Kind) (entry : Slot × Node) : Printed :=
  ⟨entry.1, entry.2.kind, entry.2.layout style (some parent)⟩

/-- Whether comments are sound. -/
def SoundComments (comments : List Comment) : Prop :=
  ∀ comment ∈ comments, (Token.comment comment.text).Sound

section Comments

variable {style : Style}

/-- The text of a comment that is kept. -/
theorem Style.comment_eq (hkept : style.comments = true) (text : String) :
    style.comment text.toList = '#' :: (style.commentText text).toList ++ ['\n'] := by
  cases hp : style.pretty <;> simp [comment, commentText, hkept, hp]

theorem Style.comment_eq_nil (hdropped : style.comments = false) (text : List Char) :
    style.comment text = [] := by
  simp [comment, hdropped]

theorem Node.layout_ofComment (parent : Option Kind) (comment : Comment) :
    (Node.ofComment comment).layout style parent = style.comment comment.text.toList := by
  obtain ⟨inline, text⟩ := comment
  cases inline <;> rfl

/-- The pieces of comments in a style that drops them. -/
theorem Piece.styled_leadingPieces_nil (hdropped : style.comments = false)
    (comments : List Comment) : Piece.styled style (leadingPieces comments) = [] := by
  rw [Piece.styled, leadingPieces, List.filterMap_map]
  exact List.filterMap_eq_nil_iff.2 fun comment _ => by simp [Piece.styled?, hdropped]

/-- The pieces of comments in a style that keeps them. -/
theorem Piece.styled_leadingPieces (hkept : style.comments = true) (comments : List Comment) :
    Piece.styled style (leadingPieces comments) =
      comments.map fun comment => .leading (style.commentText comment.text) := by
  rw [Piece.styled, leadingPieces, List.filterMap_map, ← List.filterMap_eq_map]
  exact congrArg (fun f => List.filterMap f comments)
    (funext fun comment => by simp [Piece.styled?, hkept])

theorem endsLine_comment (hkept : style.comments = true) (out : List Char) (text : String) :
    endsLine (out ++ style.comment text.toList) = true := by
  rw [Style.comment_eq hkept, ← List.append_assoc, Text.endsLine_append (by simp)]
  rfl

/-- Comments behind a text that ends its line stand on the next ones. -/
theorem putAll_leading (hkept : style.comments = true) {out : List Char}
    (hout : endsLine out = true) (comments : List Comment) :
    Piece.putAll style.pretty out (Piece.styled style (leadingPieces comments)) =
      out ++ comments.flatMap fun comment => style.comment comment.text.toList := by
  rw [Piece.styled_leadingPieces hkept]
  induction comments generalizing out with
  | nil => simp [Piece.putAll]
  | cons comment comments ih =>
    have hput : Piece.put style.pretty out (.leading (style.commentText comment.text)) =
        out ++ style.comment comment.text.toList := by
      rw [Style.comment_eq hkept]
      exact Text.glue_of_endsLine hout _
    rw [List.map_cons, Piece.putAll, List.foldl_cons, hput, List.flatMap_cons, ← List.append_assoc]
    exact ih (endsLine_comment hkept out comment.text)

/-- The text of comments, on lines of their own. -/
theorem render_leading (comments : List Comment) :
    Piece.render style.pretty (Piece.styled style (leadingPieces comments)) =
      if (comments.flatMap fun comment => style.comment comment.text.toList) = [] then []
      else '\n' :: comments.flatMap fun comment => style.comment comment.text.toList := by
  cases hkept : style.comments with
  | false =>
    rw [Piece.styled_leadingPieces_nil hkept, if_pos]
    · rfl
    · exact List.flatMap_eq_nil_iff.2 fun comment _ => Style.comment_eq_nil hkept _
  | true =>
    cases comments with
    | nil => rfl
    | cons comment comments =>
      have hne : (comment :: comments).flatMap (fun c => style.comment c.text.toList) ≠ [] := by
        rw [List.flatMap_cons, Style.comment_eq hkept]
        simp
      have hfirst : Piece.put style.pretty [] (.leading (style.commentText comment.text)) =
          '\n' :: style.comment comment.text.toList := by
        rw [Style.comment_eq hkept]
        rfl
      have hends : endsLine ('\n' :: style.comment comment.text.toList) = true :=
        endsLine_comment hkept ['\n'] comment.text
      have hrest := putAll_leading hkept hends comments
      rw [if_neg hne, List.flatMap_cons, ← List.cons_append, ← hrest,
        Piece.styled_leadingPieces hkept, Piece.styled_leadingPieces hkept, List.map_cons,
        Piece.render, Piece.putAll, List.foldl_cons, hfirst]
      rfl

/-- Comments around pieces, the last of them behind if it is an inline comment. -/
theorem around_cases (comments : List Comment) (body : List Piece) (own : Bool) :
    (own && comments.getLast?.any Comment.inline) = false ∧
        around comments body own = leadingPieces comments ++ body ∨
      ∃ before text, own = true ∧ comments = before ++ [⟨true, text⟩] ∧
        around comments body own = leadingPieces before ++ body ++ [.trailing text] := by
  cases own with
  | false => exact .inl ⟨rfl, rfl⟩
  | true =>
    rcases List.eq_nil_or_concat comments with rfl | ⟨before, ⟨inline, text⟩, rfl⟩
    · exact .inl ⟨rfl, rfl⟩
    · cases inline with
      | false => exact .inl ⟨by simp, by simp [around]⟩
      | true => exact .inr ⟨before, text, rfl, by simp, by simp [around]⟩

theorem Piece.Known.leading {comments : List Comment} (h : SoundComments comments) :
    Known (leadingPieces comments) := by
  intro piece hp
  obtain ⟨comment, hmem, rfl⟩ := List.mem_map.1 hp
  exact h comment hmem

theorem Piece.Anchored.leading {body : List Piece} (h : Anchored body) (comments : List Comment) :
    Anchored (leadingPieces comments ++ body) := by
  induction comments with
  | nil => exact h
  | cons comment comments ih => exact ih

theorem Piece.Anchored.around {body : List Piece} (h : Anchored body) (comments : List Comment)
    (own : Bool) : Anchored (around comments body own) := by
  rcases around_cases comments body own with ⟨-, he⟩ | ⟨before, text, -, -, he⟩
  · rw [he]
    exact h.leading comments
  · rw [he]
    exact (h.leading before).append _

theorem Piece.Known.append {a b : List Piece} (ha : Known a) (hb : Known b) : Known (a ++ b) :=
  fun piece hp => (List.mem_append.1 hp).elim (ha piece) (hb piece)

theorem Piece.Known.around {body : List Piece} (h : Known body) {comments : List Comment}
    (hcomments : SoundComments comments) (own : Bool) : Known (around comments body own) := by
  rcases around_cases comments body own with ⟨-, he⟩ | ⟨before, text, -, rfl, he⟩
  · rw [he]
    exact (Known.leading hcomments).append h
  · have hbefore : SoundComments before :=
      fun comment hmem => hcomments comment (List.mem_append_left _ hmem)
    have htext : Known [.trailing text] := by
      intro piece hp
      obtain rfl := List.mem_singleton.1 hp
      exact hcomments ⟨true, text⟩ (by simp)
    rw [he]
    exact ((Known.leading hbefore).append h).append htext

/-- A text in front of a comment on the same line. -/
theorem put_trailing {t : Token} (ht : t.Known) (hc : t.isComment = false) (out : List Char)
    (text : String) :
    Piece.put style.pretty (Piece.put style.pretty out (.token t)) (.trailing text) =
      Piece.put style.pretty out (.token t) ++ Piece.text style.pretty (.trailing text) := by
  obtain ⟨c, l, hcl, -⟩ := ht.exists_cons
  have hlast : endsLine (Piece.put style.pretty out (.token t)) = false := by
    have hput : Piece.put style.pretty out (.token t) = out ++ t.write := by
      rw [Piece.put_ink rfl ht]
      simp [Piece.before, Piece.behind]
    rw [hput, Text.endsLine_append (by simp [hcl])]
    cases hend : endsLine t.write with
    | false => rfl
    | true =>
      have hignored := ht.getLast? hc '\n' (by simpa [endsLine] using hend)
      cases hignored
  refine (Text.glue_of_head?_ne hlast ?_)
  simp only [Piece.text, Piece.softSpace]
  split <;> simp

/-- The text of comments around a text. -/
theorem attachComments_eq {comments : List Comment} (hcomments : SoundComments comments)
    {body : List Piece} (hanchored : Piece.Anchored body) (hknown : Piece.Known body) {own : Bool}
    (hlast : own = true → comments ≠ [] → ∃ before t, body = before ++ [.token t])
    (slot : Slot) (parent : Kind) :
    attachComments style ((Node.ofComments slot comments).map (Node.printed style parent))
        (Piece.render style.pretty (Piece.styled style body)) own =
      Piece.render style.pretty (Piece.styled style (around comments body own)) := by
  -- The text of the comments, whether the last of them is inline, and the comments in front of the
  -- body, each by itself.
  have htext (comments : List Comment) :
      ((Node.ofComments slot comments).map (Node.printed style parent)).flatMap Printed.text =
        comments.flatMap fun comment => style.comment comment.text.toList := by
    simp only [Node.ofComments, List.map_map, List.flatMap_map, Function.comp_apply, Node.printed,
      Node.layout_ofComment]
  have hkind (comments : List Comment) :
      (((Node.ofComments slot comments).map (Node.printed style parent)).getLast?.any
        fun child => child.kind = .inlineComment) = comments.getLast?.any Comment.inline := by
    simp only [Node.ofComments, List.map_map, List.getLast?_map, Option.any_map,
      Function.comp_def, Node.printed]
    cases comments.getLast? with
    | none => rfl
    | some comment => cases h : comment.inline <;> simp [Node.ofComment, Node.kind, h]
  have hbefore (comments : List Comment) (hcomments : SoundComments comments) :
      Piece.render style.pretty (Piece.styled style (leadingPieces comments ++ body)) =
        glue (Piece.render style.pretty (Piece.styled style (leadingPieces comments)))
          (Piece.render style.pretty (Piece.styled style body)) := by
    rw [Piece.styled_append]
    exact Piece.render_append _ (hanchored.styled style).opens (hknown.styled style)
  -- Either all comments stand in front of the body or the last one stands behind its token.
  rcases around_cases comments body own with ⟨hown, haround⟩ | ⟨before, text, rfl, rfl, haround⟩
  · simp only [attachComments, hkind, hown, htext, Bool.false_eq_true, if_false,
      List.isEmpty_nil, if_true, List.append_nil]
    rw [haround, hbefore comments hcomments, render_leading]
    simp only [List.isEmpty_iff]
  · have hsplit : (Node.ofComments slot (before ++ [⟨true, text⟩])).map (Node.printed style parent) =
        (Node.ofComments slot before).map (Node.printed style parent) ++
          [⟨slot, .inlineComment, style.comment text.toList⟩] := by
      rw [Node.ofComments_append, List.map_append]
      rfl
    rw [haround, Piece.styled_append]
    simp only [attachComments, hsplit, List.getLast?_append, List.getLast?_singleton,
      Option.some_or, Option.any_some, decide_true, Bool.and_self, if_true, List.dropLast_concat,
      htext, Option.map_some, Option.getD_some]
    have hmain := hbefore before fun comment hmem => hcomments comment (List.mem_append_left _ hmem)
    rw [render_leading] at hmain
    simp only [List.isEmpty_iff]
    rw [← hmain]
    cases hkept : style.comments with
    | false => simp [Style.comment_eq_nil hkept, Piece.styled, Piece.styled?, hkept]
    | true =>
      -- The inline comment is glued to the last token of the body, so the token is split off first.
      obtain ⟨init, t, rfl⟩ := hlast rfl (by simp)
      obtain ⟨ht, hc⟩ := hknown (.token t) (by simp)
      have hpieces : Piece.styled style (leadingPieces before ++ (init ++ [.token t])) =
          Piece.styled style (leadingPieces before ++ init) ++ [.token t] := by
        rw [← List.append_assoc, Piece.styled_append]
        rfl
      have hrender (pieces : List Piece) (piece : Piece) :
          Piece.render style.pretty (pieces ++ [piece]) =
            Piece.put style.pretty (Piece.render style.pretty pieces) piece :=
        Piece.putAll_append ..
      rw [hpieces, Piece.styled_trailing hkept, hrender, hrender, hrender, put_trailing ht hc,
        if_neg (by simp [Style.comment_eq hkept]), Style.comment_eq hkept]
      simp [Piece.text, Style.space, Piece.softSpace]

end Comments

end GraphQLTree
