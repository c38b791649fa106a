import GraphQLTree.Grammar.Printer
import GraphQLTree.Proofs.Token.Words
import GraphQLTree.Text.Glue.Lemmas

/-!
# Pieces of printed text

Printed text is made of **pieces**: tokens, comments and the space between them. `Piece.put` glues a
piece onto a text, and `Piece.render` puts pieces one after the other. Rendering pieces that begin
with a token or a comment is gluing their own text (`render_append`), so the text of a node is a part
of the text that it stands in.
-/

namespace GraphQLTree

open Text (endsLine glue)

/-- A piece of printed text. -/
inductive Piece where
  /-- A space in pretty text only. -/
  | soft
  /-- A space. -/
  | hard
  /-- What separates the items of a list, unless the text ends its line. -/
  | comma
  /-- So many line breaks in compact text, and so many in pretty text. -/
  | lines (compact pretty : Nat)
  /-- A comment on a line of its own. -/
  | leading (text : String)
  /-- A comment behind a token. -/
  | trailing (text : String)
  | token (token : Token)
  deriving DecidableEq

namespace Piece

/-- A space in pretty text only. -/
def softSpace (pretty : Bool) : List Char :=
  if pretty then [' '] else []

/-- The text of a piece other than a comma. -/
def text (pretty : Bool) : Piece → List Char
  | soft => softSpace pretty
  | hard => [' ']
  | comma => ',' :: softSpace pretty
  | lines compact loose => List.replicate (if pretty then loose else compact) '\n'
  | leading text => '\n' :: '#' :: text.toList ++ ['\n']
  | trailing text => softSpace pretty ++ '#' :: text.toList ++ ['\n']
  | token t => t.write

/-- Puts a piece behind a text. -/
def put (pretty : Bool) (out : List Char) (piece : Piece) : List Char :=
  if piece = comma && endsLine out then out else glue out (piece.text pretty)

/-- A line is broken in the same way in every style if it is broken once. -/
theorem put_lines (pretty : Bool) (out : List Char) : put pretty out (lines 1 1) = glue out ['\n'] := by
  cases pretty <;> rfl

/-- Puts pieces behind a text. -/
def putAll (pretty : Bool) (out : List Char) (pieces : List Piece) : List Char :=
  pieces.foldl (put pretty) out

/-- The text of pieces. -/
def render (pretty : Bool) (pieces : List Piece) : List Char :=
  putAll pretty [] pieces

/-- The token that a piece is written for. -/
def ink : Piece → Option Token
  | leading text => some (.comment text)
  | trailing text => some (.comment text)
  | token t => some t
  | _ => none

/-- Whether pieces begin with a comment or a token, if there are any. -/
def Opens (pieces : List Piece) : Prop :=
  ∀ piece ∈ pieces.head?, piece.ink ≠ none

/-- Whether the token that a piece is written for is known. -/
def IsKnown : Piece → Prop
  | leading text => (Token.comment text).Sound
  | trailing text => (Token.comment text).Sound
  | token t => t.Known ∧ t.isComment = false
  | _ => True

/-- Whether the tokens that pieces are written for are known. -/
def Known (pieces : List Piece) : Prop :=
  ∀ piece ∈ pieces, piece.IsKnown

theorem Known.cons {piece : Piece} {pieces : List Piece} (h : Known (piece :: pieces)) :
    piece.IsKnown ∧ Known pieces :=
  ⟨h piece (by simp), fun p hp => h p (by simp [hp])⟩

/-- Whether the token that a piece is written for is sound. -/
def IsSound : Piece → Prop
  | leading text => (Token.comment text).Sound
  | trailing text => (Token.comment text).Sound
  | token t => t.Sound ∧ t.isComment = false
  | _ => True

/-- Whether the tokens that pieces are written for are sound. -/
def Sound (pieces : List Piece) : Prop :=
  ∀ piece ∈ pieces, piece.IsSound

theorem Sound.cons {piece : Piece} {pieces : List Piece} (h : Sound (piece :: pieces)) :
    piece.IsSound ∧ Sound pieces :=
  ⟨h piece (by simp), fun p hp => h p (by simp [hp])⟩

theorem Sound.known {pieces : List Piece} (h : Sound pieces) : Known pieces := by
  intro piece hp
  have := h piece hp
  cases piece with
  | token t => exact ⟨.inl this.1, this.2⟩
  | _ => exact this

theorem IsKnown.ink {piece : Piece} (h : piece.IsKnown) {t : Token} (ht : piece.ink = some t) :
    t.Known := by
  cases piece with
  | leading text => obtain rfl := Option.some.inj ht; exact .inl h
  | trailing text => obtain rfl := Option.some.inj ht; exact .inl h
  | token t => obtain rfl := Option.some.inj ht; exact h.1
  | _ => cases ht

end Piece

/-! ### Ink -/

namespace Text

/-- Whether a text has a character that gluing never takes away. -/
def Inked (text : List Char) : Prop :=
  ∃ c ∈ text, c ≠ ' ' ∧ c ≠ '\n'

theorem mem_dropSpaces {c : Char} (hc : c ≠ ' ') {text : List Char} (h : c ∈ text) :
    c ∈ dropSpaces text := by
  induction text with
  | nil => cases h
  | cons d text ih =>
    by_cases hd : d = ' '
    · subst hd
      rw [dropSpaces_space_cons]
      exact ih ((List.mem_cons.1 h).resolve_left hc)
    · rwa [dropSpaces_cons_of_ne hd]

theorem mem_trimSpaces {c : Char} (hc : c ≠ ' ') {text : List Char} (h : c ∈ text) :
    c ∈ trimSpaces text :=
  List.mem_reverse.2 (mem_dropSpaces hc (List.mem_reverse.2 h))

theorem mem_afterBreak {c : Char} (hs : c ≠ ' ') (hn : c ≠ '\n') {text : List Char}
    (h : c ∈ text) : c ∈ afterBreak text := by
  have hmem := mem_dropSpaces hs h
  unfold afterBreak dropLineFeed
  split
  · next he => exact (List.mem_cons.1 (he ▸ hmem)).resolve_left hn
  · exact hmem

theorem Inked.glue {out text : List Char} (h : Inked out ∨ Inked text) :
    Inked (glue out text) := by
  rcases h with ⟨c, hmem, hs, hn⟩ | ⟨c, hmem, hs, hn⟩ <;> refine ⟨c, ?_, hs, hn⟩ <;>
    unfold Text.glue <;> split <;> try split
  · exact List.mem_append_left _ hmem
  · exact List.mem_append_left _ (mem_trimSpaces hs hmem)
  · exact List.mem_append_left _ hmem
  · exact List.mem_append_right _ (mem_afterBreak hs hn hmem)
  · exact List.mem_append_right _ hmem
  · exact List.mem_append_right _ hmem

theorem Inked.ne_nil {text : List Char} (h : Inked text) : text ≠ [] := by
  obtain ⟨c, hmem, -⟩ := h
  exact List.ne_nil_of_mem hmem

/-- A text with ink ends its line or not, whatever it is glued to. -/
theorem endsLine_glue {text : List Char} (h : Inked text) (out : List Char) :
    endsLine (glue out text) = endsLine text := by
  unfold Text.glue
  split
  · obtain ⟨c, hmem, hs, hn⟩ := h
    have hne := List.ne_nil_of_mem (mem_afterBreak hs hn hmem)
    rw [endsLine_append hne, endsLine_afterBreak hne]
  · split <;> exact endsLine_append h.ne_nil

end Text

/-! ### Pieces in a text -/

namespace Piece

variable (pretty : Bool)

theorem inked_text {piece : Piece} {token : Token} (h : piece.ink = some token)
    (hknown : token.Known) : Text.Inked (piece.text pretty) := by
  cases piece with
  | leading text => exact ⟨'#', by simp [Piece.text], by decide, by decide⟩
  | trailing text => exact ⟨'#', by simp [Piece.text], by decide, by decide⟩
  | token t =>
    obtain rfl := Option.some.inj h
    obtain ⟨c, l, hcl, hc⟩ := hknown.exists_cons
    refine ⟨c, by simp [Piece.text, hcl], ?_, ?_⟩ <;> rintro rfl <;> cases hc
  | _ => cases h

theorem inked_put {out : List Char} (h : Text.Inked out) (piece : Piece) :
    Text.Inked (put pretty out piece) := by
  unfold put
  split
  · exact h
  · exact .glue (.inl h)

/-- A piece behind a text with ink doesn't depend on what the text is glued to. -/
theorem put_glue {text : List Char} (h : Text.Inked text) (out : List Char) (piece : Piece) :
    put pretty (glue out text) piece = glue out (put pretty text piece) := by
  unfold put
  rw [Text.endsLine_glue h]
  split
  · rfl
  · exact Text.glue_assoc ..

theorem putAll_glue {text : List Char} (h : Text.Inked text) (out : List Char)
    (pieces : List Piece) :
    putAll pretty (glue out text) pieces = glue out (putAll pretty text pieces) := by
  induction pieces generalizing text with
  | nil => rfl
  | cons piece pieces ih =>
    rw [putAll, putAll, List.foldl_cons, List.foldl_cons, put_glue pretty h]
    exact ih (inked_put pretty h piece)

variable {pretty}

theorem putAll_append (out : List Char) (a b : List Piece) :
    putAll pretty out (a ++ b) = putAll pretty (putAll pretty out a) b :=
  List.foldl_append

/-- Pieces that begin with a token or a comment are put behind a text by gluing their own text. -/
theorem putAll_eq_glue {pieces : List Piece} (hopens : Opens pieces) (hknown : Known pieces)
    (out : List Char) : putAll pretty out pieces = glue out (render pretty pieces) := by
  cases pieces with
  | nil => exact (Text.glue_nil out).symm
  | cons piece pieces =>
    obtain ⟨token, htoken⟩ := Option.ne_none_iff_exists'.1 (hopens piece rfl)
    have hput (out : List Char) : put pretty out piece = glue out (piece.text pretty) := by
      have hne : piece ≠ comma := by
        rintro rfl
        cases htoken
      simp [put, hne]
    have hinked := inked_text pretty htoken (hknown.cons.1.ink htoken)
    rw [render, putAll, putAll, List.foldl_cons, List.foldl_cons, hput, hput, Text.nil_glue]
    exact putAll_glue pretty hinked out pieces

/-- The text of pieces that begin with a token or a comment stands as it is behind others. -/
theorem render_append (a : List Piece) {b : List Piece} (hopens : Opens b) (hknown : Known b) :
    render pretty (a ++ b) = glue (render pretty a) (render pretty b) := by
  rw [render, putAll_append, putAll_eq_glue hopens hknown]
  rfl

end Piece

end GraphQLTree
