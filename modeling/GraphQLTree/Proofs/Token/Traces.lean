import GraphQLTree.Proofs.Token.Cursor

/-!
# Traces

What is scanned of a text leaves **traces**: its tokens and comments in the order in which they come,
and its end. The scrap directly before a comment decides whether the comment is inline
(`Token.claims`). Writing out the lexemes of a stream, each with its block comments before it and its
inline comment behind it, gives back exactly the traces of the text (`TokenStream.written_group`), and
a cursor gives those lexemes whatever it is asked for in between (`Cursor.answers_traces`).
-/

namespace GraphQLTree

open TokenStream (Head)

/-- What is scanned: a comment, any other token, or the end of the text. -/
inductive Trace where
  | comment (comment : Comment)
  | token (token : Token) (span : Span)
  | finish (offset : Nat)
  deriving DecidableEq

/-- Whether a comment behind a gap belongs to the token that is scanned directly before it: one that
is no comment and not invalid, without a line break in between. -/
def Token.claims (previous : Option Token) (gap : List Char) : Bool :=
  match previous with
  | none | some (.comment _) | some .invalid => false
  | some _ => !Text.hasLineBreak gap

/-- The traces of scraps behind a token. -/
def Scrap.traces (previous : Option Token) : List (Scrap × Span) → List Trace
  | [] => []
  | (⟨gap, .comment text, _⟩, _) :: rest =>
    .comment ⟨Token.claims previous gap, text⟩ :: traces (some (.comment text)) rest
  | (⟨_, token, _⟩, span) :: rest => .token token span :: traces (some token) rest

namespace TokenStream.Head

/-- The comments of what stands next. -/
def comments : Head → List Comment
  | .lexeme next => next.comments
  | .finish _ comments => comments

/-- What stands next without its comments. -/
def mark : Head → Trace
  | .lexeme next => .token next.token next.span
  | .finish offset _ => .finish offset

def blocks (head : Head) : List Comment :=
  head.comments.filter (!·.inline)

def inlines (head : Head) : List Comment :=
  head.comments.filter (·.inline)

/-- Block comments, then the token, then the inline comment. -/
def written (head : Head) : List Trace :=
  head.blocks.map .comment ++ head.mark :: head.inlines.map .comment

/-- Whether the comments are block comments and then at most one inline comment. -/
def Ordered (head : Head) : Prop :=
  head.comments = head.blocks ++ head.inlines ∧ head.inlines.length ≤ 1

theorem blocks_of_comments {head : Head} {blocks inlines : List Comment}
    (hblocks : ∀ comment ∈ blocks, comment.inline = false)
    (hinlines : ∀ comment ∈ inlines, comment.inline = true)
    (h : head.comments = blocks ++ inlines) : head.blocks = blocks ∧ head.inlines = inlines := by
  have hnone : blocks.filter (·.inline) = [] := List.filter_eq_nil_iff.2 (by simpa using hblocks)
  have hnone' : inlines.filter (!·.inline) = [] :=
    List.filter_eq_nil_iff.2 (by simpa using hinlines)
  refine ⟨?_, ?_⟩
  · rw [Head.blocks, h, List.filter_append, hnone', List.append_nil]
    exact List.filter_eq_self.2 (by simpa using hblocks)
  · rw [Head.inlines, h, List.filter_append, hnone, List.nil_append]
    exact List.filter_eq_self.2 (by simpa using hinlines)

/-- A head whose comments are block comments and then at most one inline comment is written in the
order of its comments. -/
theorem written_of_comments (head : Head) (blocks inlines : List Comment)
    (hblocks : ∀ comment ∈ blocks, comment.inline = false)
    (hinlines : ∀ comment ∈ inlines, comment.inline = true) (hlength : inlines.length ≤ 1)
    (h : head.comments = blocks ++ inlines) :
    head.written = blocks.map .comment ++ head.mark :: inlines.map .comment ∧ head.Ordered := by
  obtain ⟨hblocks', hinlines'⟩ := blocks_of_comments hblocks hinlines h
  rw [written, Ordered, hblocks', hinlines']
  exact ⟨rfl, h, hlength⟩

end TokenStream.Head

namespace Scrap

/-- Behind a token that claims no comment, scraps leave the traces that they leave at the start of a
text. -/
theorem traces_some {token : Token} {raws : List (Scrap × Span)}
    (h : (∃ text, token = .comment text) ∨ token = .invalid ∨
      inlineText? (raws.map Prod.fst) = none) :
    traces (some token) raws = traces none raws := by
  cases raws with
  | nil => rfl
  | cons raw raws =>
    obtain ⟨⟨gap, next, written⟩, span⟩ := raw
    cases next with
    | comment text =>
      have hclaims : Token.claims (some token) gap = false := by
        rcases h with ⟨text, rfl⟩ | rfl | h
        · rfl
        · rfl
        · have hgap : Text.hasLineBreak gap = true := by simpa [inlineText?] using h
          cases token <;> simp [Token.claims, hgap]
      rw [traces, traces, hclaims]
      rfl
    | _ => rfl

theorem traces_token {token : Token} (hc : ∀ text, token ≠ .comment text) (previous : Option Token)
    (gap written : List Char) (span : Span) (rest : List (Scrap × Span)) :
    traces previous ((⟨gap, token, written⟩, span) :: rest) =
      .token token span :: traces (some token) rest := by
  cases token with
  | comment text => exact absurd rfl (hc text)
  | _ => rfl

end Scrap

namespace TokenStream

/-- The heads of a stream of grouped scraps. -/
private theorem heads_put (lexeme : Lexeme) (later : List Lexeme × List Comment) (size : Nat) :
    heads ⟨(put lexeme later).1, (put lexeme later).2, size⟩ =
      .lexeme lexeme :: heads ⟨later.1, later.2, size⟩ :=
  rfl

/-- The lexemes of scraps hold what was pending and what is scanned, in order. -/
theorem written_group (pending : List Comment) (scraps : List Scrap) (offset size : Nat)
    (hpending : ∀ comment ∈ pending, comment.inline = false) :
    let groups := group pending (Scrap.locateFrom offset scraps)
    (heads ⟨groups.1, groups.2, size⟩).flatMap Head.written =
        pending.map .comment ++ Scrap.traces none (Scrap.locateFrom offset scraps) ++
          [.finish size] ∧
      ∀ head ∈ heads ⟨groups.1, groups.2, size⟩, head.Ordered := by
  induction pending, scraps using Word.ofScraps_induction generalizing offset with
  | nil pending =>
    obtain ⟨hwritten, hordered⟩ := Head.written_of_comments (.finish size pending) pending []
      hpending (by simp) (by simp) (by simp [Head.comments])
    simp [group, heads, drain, Scrap.locateFrom, Scrap.traces, hwritten, hordered, Head.mark]
  | comment pending gap text written rest ih =>
    have hpending' : ∀ comment ∈ pending ++ [⟨false, text⟩], comment.inline = false := by
      simpa [or_imp, forall_and] using hpending
    rw [Scrap.locateFrom, group_comment, Scrap.traces, Scrap.traces_some (.inl ⟨text, rfl⟩)]
    simpa [Token.claims] using ih _ hpending'
  | inline pending before token written gap text written' rest hc hv hgap ih =>
    obtain ⟨hwritten, hordered⟩ := Head.written_of_comments
      (.lexeme ⟨token, (⟨before, token, written⟩ : Scrap).span offset,
        pending ++ [⟨true, text⟩]⟩) pending [⟨true, text⟩] hpending (by simp) (by simp) rfl
    have hclaims : Token.claims (some token) gap = true := by
      cases token <;> simp_all [Token.claims]
    obtain ⟨hih, hrest⟩ := ih ((⟨gap, .comment text, written'⟩ : Scrap).span
      ((⟨before, token, written⟩ : Scrap).span offset).stop).stop (by simp)
    rw [Scrap.locateFrom, Scrap.locateFrom, group_inline _ hc hv hgap, Scrap.traces_token hc,
      Scrap.traces, Scrap.traces_some (.inl ⟨text, rfl⟩), hclaims]
    simp only
    rw [heads_put, List.flatMap_cons, hih, hwritten]
    exact ⟨by simp [Head.mark], List.forall_mem_cons.2 ⟨hordered, hrest⟩⟩
  | token pending before token written rest hc h ih =>
    obtain ⟨hwritten, hordered⟩ := Head.written_of_comments
      (.lexeme ⟨token, (⟨before, token, written⟩ : Scrap).span offset, pending⟩) pending []
      hpending (by simp) (by simp) (by simp [Head.comments])
    obtain ⟨hih, hrest⟩ := ih ((⟨before, token, written⟩ : Scrap).span offset).stop (by simp)
    have hlocated : token = .invalid ∨ inlineText? ((Scrap.locateFrom
        ((⟨before, token, written⟩ : Scrap).span offset).stop rest).map Prod.fst) = none := by
      rwa [map_fst_locateFrom]
    rw [Scrap.locateFrom, group_token _ hc hlocated, Scrap.traces_token hc,
      Scrap.traces_some (.inr hlocated)]
    simp only
    rw [heads_put, List.flatMap_cons, hih, hwritten]
    exact ⟨by simp [Head.mark], List.forall_mem_cons.2 ⟨hordered, hrest⟩⟩

end TokenStream

/-- A cursor neither loses nor doubles nor moves what is scanned. It answers every sequence of calls
as the stream of the text does. However often it is asked what stands next, that is what is taken
next. What is taken is the same whatever is asked for in between: some heads in turn and then, for
ever, the end without comments. These heads, each written as its block comments, its token and its
inline comment, are the tokens and comments of the text in the order in which they are scanned and
then its end; a comment in them is inline if and only if it stands on the line of the scrap before it
and that is a token and not invalid. -/
theorem Cursor.answers_traces (text : String) :
    (∀ calls, (ofText text).answers calls = (TokenStream.ofText text).answers calls) ∧
      (∀ calls n, ∃ head,
        (ofText text).answers (calls ++ List.replicate n .peek ++ [.take]) =
          (ofText text).answers calls ++ List.replicate (n + 1) head) ∧
      ∃ heads : List Head,
        (∀ calls, (ofText text).taken calls = (List.range (calls.count .take)).map fun n =>
          heads.getD n (.finish (Text.utf8Length text.toList) [])) ∧
        heads.flatMap Head.written = Scrap.traces none (Scrap.located text.toList) ++
          [.finish (Text.utf8Length text.toList)] ∧
        ∀ head ∈ heads, head.Ordered := by
  have hanswers (calls : List Call) :
      (ofText text).answers calls = (TokenStream.ofText text).answers calls :=
    answers_stream (sound_ofText text) calls
  have hwritten := TokenStream.written_group [] (Scrap.scanAll text.toList) 0
    (Text.utf8Length text.toList) (by simp)
  refine ⟨hanswers, fun calls n => ?_, (TokenStream.ofText text).heads, fun calls => ?_, hwritten⟩
  · rw [hanswers, hanswers]
    exact TokenStream.answers_peeks _ calls n
  · rw [taken, hanswers]
    exact TokenStream.taken_answers _ calls

end GraphQLTree
