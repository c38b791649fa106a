import GraphQLTree.Proofs.Token.Words
import GraphQLTree.Token.Cursor

/-!
# Cursors read streams

A cursor stands for the **stream** of what it has not given away yet: the scraps in its buffer and
behind it, grouped into lexemes, with the peeked lexeme in front. Each call gives the head of that
stream and leaves a cursor for the rest of it (`Cursor.peek_stream`, `Cursor.take_stream`), so that
the answers to any sequence of calls are those of the stream of the text (`Cursor.answers_stream`).
-/

namespace GraphQLTree

open TokenStream (Head)

/-- What is taken is what stands next. -/
theorem TokenStream.fst_take (stream : TokenStream) : stream.take.1 = stream.peek := by
  obtain ⟨lexemes, trailing, size⟩ := stream
  cases lexemes <;> rfl

theorem TokenStream.eq_of_take_lexeme {stream rest : TokenStream} {lexeme : Lexeme}
    (h : stream.take = (.lexeme lexeme, rest)) :
    stream = { rest with lexemes := lexeme :: rest.lexemes } := by
  obtain ⟨lexemes, trailing, size⟩ := stream
  cases lexemes with
  | nil => cases h
  | cons first lexemes =>
    cases h
    rfl

theorem TokenStream.eq_of_take_finish {stream rest : TokenStream} {offset : Nat}
    {comments : List Comment} (h : stream.take = (.finish offset comments, rest)) :
    stream = ⟨[], comments, rest.size⟩ := by
  obtain ⟨lexemes, trailing, size⟩ := stream
  cases lexemes with
  | nil =>
    cases h
    rfl
  | cons first lexemes => cases h

/-! ### The stream of a cursor -/

namespace Cursor

/-- The scraps that a cursor has not given away or peeked at yet. -/
def raws (cursor : Cursor) : List (Scrap × Span) :=
  cursor.buffered.join.toList ++ cursor.ahead

/-- The stream of what a cursor has not given away yet. -/
def stream (cursor : Cursor) : TokenStream :=
  let (lexemes, trailing) := TokenStream.group [] cursor.raws
  match cursor.peeked with
  | none => ⟨lexemes, trailing, cursor.size⟩
  | some (.lexeme lexeme) => ⟨lexeme :: lexemes, trailing, cursor.size⟩
  | some (.finish _ comments) => ⟨[], comments, cursor.size⟩

/-- Whether nothing is left behind an end of the text that was scanned or looked at. -/
structure Sound (cursor : Cursor) : Prop where
  buffered : cursor.buffered = some none → cursor.ahead = []
  peeked : ∀ offset comments, cursor.peeked = some (.finish offset comments) →
    cursor.raws = [] ∧ offset = cursor.size

theorem sound_ofText (text : String) : (ofText text).Sound :=
  ⟨nofun, nofun⟩

variable {cursor next : Cursor} {raw : Option (Scrap × Span)} {comments comments' : List Comment}

/-- Scanning on takes the first scrap that is left and empties the buffer. -/
theorem raws_of_nextRaw (h : cursor.nextRaw = (raw, next))
    (hend : cursor.buffered = some none → cursor.ahead = []) :
    cursor.raws = raw.toList ++ next.raws ∧ (raw = none → next.raws = []) ∧
      next.buffered = none ∧ next.size = cursor.size ∧ next.peeked = cursor.peeked := by
  unfold nextRaw at h
  split at h
  · next buffered =>
    obtain ⟨rfl, rfl⟩ := Prod.mk.inj h
    refine ⟨by simp [raws, buffered], ?_, rfl, rfl, rfl⟩
    rintro rfl
    simpa [raws] using hend buffered
  · next buffered ahead =>
    obtain ⟨rfl, rfl⟩ := Prod.mk.inj h
    exact ⟨by simp [raws, buffered, ahead], nofun, by exact buffered, rfl, rfl⟩
  · next buffered ahead =>
    obtain ⟨rfl, rfl⟩ := Prod.mk.inj h
    exact ⟨rfl, fun _ => by simp [raws, buffered, ahead], buffered, rfl, rfl⟩

/-- Skipped comments are the pending ones of the next lexeme. -/
theorem group_of_skipComments (h : skipComments comments cursor = (comments', raw, next))
    (hend : cursor.buffered = some none → cursor.ahead = []) :
    TokenStream.group comments cursor.raws =
        TokenStream.group comments' (raw.toList ++ next.raws) ∧
      (∀ scrap span, raw = some (scrap, span) → ∀ text, scrap.token ≠ .comment text) ∧
      (raw = none → next.raws = []) ∧
      next.buffered = none ∧ next.size = cursor.size ∧ next.peeked = cursor.peeked := by
  induction comments, cursor using skipComments.induct with
  | case1 comments cursor gap text written span between hraw ih =>
    obtain ⟨hraws, -, hbuffered, hsize, hpeeked⟩ := raws_of_nextRaw hraw hend
    rw [skipComments, hraw] at h
    obtain ⟨hgroup, hcomment, hnone, hclear, hsize', hpeeked'⟩ := ih h (by simp [hbuffered])
    refine ⟨?_, hcomment, hnone, hclear, hsize'.trans hsize, hpeeked'.trans hpeeked⟩
    rw [← hgroup, hraws]
    exact TokenStream.group_comment comments gap text written span between.raws
  | case2 comments cursor raw' between hcomment hraw =>
    obtain ⟨hraws, hnone, hbuffered, hsize, hpeeked⟩ := raws_of_nextRaw hraw hend
    have hskip : skipComments comments cursor = (comments, raw', between) := by
      rw [skipComments, hraw]
      split
      · next heq =>
        obtain ⟨rfl, -⟩ := Prod.mk.inj heq
        exact absurd rfl (hcomment _ _ _ _)
      · next heq =>
        obtain ⟨rfl, rfl⟩ := Prod.mk.inj heq
        rfl
    obtain ⟨rfl, hrest⟩ := Prod.mk.inj (hskip.symm.trans h)
    obtain ⟨rfl, rfl⟩ := Prod.mk.inj hrest
    refine ⟨by rw [hraws], ?_, hnone, hbuffered, hsize, hpeeked⟩
    rintro ⟨gap, token, written⟩ span rfl text rfl
    exact hcomment _ _ _ _ rfl

theorem readInline_of_inline {gap written : List Char} {text : String} {span : Span}
    (h : cursor.nextRaw = (some (⟨gap, .comment text, written⟩, span), next))
    (hgap : Text.hasLineBreak gap = false) : cursor.readInline = ([⟨true, text⟩], next) := by
  rw [readInline, h]
  simp [hgap]

theorem readInline_of_none (h : cursor.nextRaw = (raw, next))
    (hraw : inlineText? (raw.toList.map Prod.fst) = none) :
    cursor.readInline = ([], { next with buffered := some raw }) := by
  rw [readInline, h]
  split
  · next gap text written span next' heq =>
    obtain ⟨rfl, rfl⟩ := Prod.mk.inj heq
    have hgap : Text.hasLineBreak gap = true := by simpa [inlineText?] using hraw
    simp [hgap]
  · next heq =>
    obtain ⟨rfl, rfl⟩ := Prod.mk.inj heq
    rfl

/-- Whether some scraps start with an inline comment is up to the first of them. -/
theorem inlineText?_cons (scrap : Scrap) (rest rest' : List Scrap) :
    inlineText? (scrap :: rest) = inlineText? (scrap :: rest') := by
  obtain ⟨gap, token, written⟩ := scrap
  cases token <;> rfl

/-- What is read behind a token is its inline comment, or it stays to be read. -/
theorem group_of_readInline (scrap : Scrap) (span : Span) (hbuffered : cursor.buffered = none)
    (hc : ∀ text, scrap.token ≠ .comment text) (hv : scrap.token ≠ .invalid)
    (comments : List Comment) :
    TokenStream.group comments ((scrap, span) :: cursor.raws) =
        TokenStream.put ⟨scrap.token, span, comments ++ cursor.readInline.1⟩
          (TokenStream.group [] cursor.readInline.2.raws) ∧
      (cursor.readInline.2.buffered = some none → cursor.readInline.2.ahead = []) ∧
      cursor.readInline.2.size = cursor.size ∧ cursor.readInline.2.peeked = cursor.peeked := by
  obtain ⟨raw, next, hraw⟩ : ∃ raw next, cursor.nextRaw = (raw, next) := ⟨_, _, rfl⟩
  obtain ⟨hraws, hnone, hclear, hsize, hpeeked⟩ := raws_of_nextRaw hraw (by simp [hbuffered])
  have hnext : next.raws = next.ahead := by simp [raws, hclear]
  by_cases hinline : inlineText? (raw.toList.map Prod.fst) = none
  · have hbehind : inlineText? ((raw.toList ++ next.raws).map Prod.fst) = none := by
      cases raw with
      | none => rw [hnone rfl]; rfl
      | some raw => rwa [Option.toList, List.singleton_append, List.map_cons, inlineText?_cons]
    rw [readInline_of_none hraw hinline, hraws,
      TokenStream.group_token comments hc (.inr hbehind) scrap.gap scrap.text span]
    refine ⟨by simp [raws, hclear], fun hend => ?_, hsize, hpeeked⟩
    rw [← hnext]
    exact hnone (Option.some.inj hend)
  · match raw, hinline with
    | some (⟨gap, .comment text, written⟩, span'), hinline =>
      have hgap : Text.hasLineBreak gap = false := by simpa [inlineText?] using hinline
      rw [readInline_of_inline hraw hgap, hraws]
      exact ⟨TokenStream.group_inline comments hc hv hgap text scrap.gap scrap.text written span
        span' next.raws, by simp [hclear], hsize, hpeeked⟩

/-! ### Calls -/

/-- A cursor whose next lexeme is known stands for the stream that starts with it. -/
theorem take_stream_of_group {lexeme : Lexeme} (hsize : next.size = cursor.size)
    (hpeeked : cursor.peeked = none) (hpeeked' : next.peeked = none)
    (hgroup : TokenStream.group [] cursor.raws =
      TokenStream.put lexeme (TokenStream.group [] next.raws)) :
    cursor.stream.take = (.lexeme lexeme, next.stream) := by
  simp [stream, hpeeked, hpeeked', hgroup, TokenStream.put, TokenStream.take, hsize]

/-- A cursor that has not peeked takes the head of its stream. -/
theorem read_stream (h : cursor.Sound) (hpeeked : cursor.peeked = none) :
    cursor.stream.take = (cursor.read.1, cursor.read.2.stream) ∧
      cursor.read.2.Sound ∧ cursor.read.2.peeked = none ∧
      (∀ offset comments, cursor.read.1 = .finish offset comments →
        cursor.read.2.raws = [] ∧ offset = cursor.read.2.size) := by
  obtain ⟨comments, raw, next, hskip⟩ : ∃ comments raw next,
      skipComments [] cursor = (comments, raw, next) := ⟨_, _, _, rfl⟩
  obtain ⟨hgroup, hcomment, hnone, hclear, hsize, hunpeeked⟩ :=
    group_of_skipComments hskip h.buffered
  rw [hpeeked] at hunpeeked
  unfold read
  rw [hskip]
  cases raw with
  | none =>
    have hraws : next.raws = [] := hnone rfl
    rw [hraws] at hgroup
    refine ⟨?_, ⟨by simp [hclear], by simp [hunpeeked]⟩, hunpeeked, ?_⟩
    · simp [stream, hpeeked, hunpeeked, hraws, hgroup, TokenStream.group, TokenStream.take, hsize]
    · rintro offset comments' heq
      exact ⟨hraws, (Head.finish.inj heq).1.symm⟩
  | some located =>
    obtain ⟨scrap, span⟩ := located
    have hc := hcomment scrap span rfl
    by_cases hv : scrap.token = .invalid
    · have hput : TokenStream.group comments ((scrap, span) :: next.raws) =
          TokenStream.put ⟨scrap.token, span, comments⟩ (TokenStream.group [] next.raws) :=
        TokenStream.group_token comments hc (.inl hv) scrap.gap scrap.text span
      simp only [hv, ↓reduceIte]
      refine ⟨?_, ⟨by simp [hclear], by simp [hunpeeked]⟩, hunpeeked, fun _ _ heq => by cases heq⟩
      rw [← hv]
      exact take_stream_of_group hsize hpeeked hunpeeked (hgroup.trans hput)
    · obtain ⟨hput, hend, hsize', hpeeked'⟩ :=
        group_of_readInline scrap span hclear hc hv comments
      simp only [hv, ↓reduceIte]
      refine ⟨?_, ⟨hend, by simp [hunpeeked, hpeeked']⟩, hpeeked'.trans hunpeeked,
        fun _ _ heq => by cases heq⟩
      exact take_stream_of_group (hsize'.trans hsize) hpeeked (hpeeked'.trans hunpeeked)
        (hgroup.trans hput)

/-- Looking at what stands next changes nothing but the cursor's state. -/
theorem peek_stream (h : cursor.Sound) :
    cursor.peek.1 = cursor.stream.peek ∧ cursor.peek.2.stream = cursor.stream ∧
      cursor.peek.2.Sound := by
  unfold peek
  split
  · next head hpeeked =>
    refine ⟨?_, rfl, h⟩
    cases head with
    | lexeme lexeme => simp [stream, hpeeked, TokenStream.peek]
    | finish offset comments =>
      obtain ⟨-, rfl⟩ := h.peeked offset comments hpeeked
      simp [stream, hpeeked, TokenStream.peek]
  · next hpeeked =>
    obtain ⟨htake, hsound, hunpeeked, hfinish⟩ := read_stream h hpeeked
    obtain ⟨head, next, hread⟩ : ∃ head next, cursor.read = (head, next) := ⟨_, _, rfl⟩
    rw [hread] at htake hsound hunpeeked hfinish ⊢
    simp only at htake hsound hunpeeked hfinish ⊢
    have hpeek : head = cursor.stream.peek := by
      rw [← TokenStream.fst_take, htake]
    refine ⟨hpeek, ?_, hsound.buffered, fun offset comments heq => ?_⟩
    · cases head with
      | lexeme lexeme =>
        rw [TokenStream.eq_of_take_lexeme htake]
        simp [stream, hunpeeked, raws]
      | finish offset comments =>
        rw [TokenStream.eq_of_take_finish htake]
        simp [stream, hunpeeked]
    · exact hfinish offset comments (Option.some.inj heq)

/-- Taking what stands next leaves the rest of the stream. -/
theorem take_stream (h : cursor.Sound) :
    cursor.stream.take = (cursor.take.1, cursor.take.2.stream) ∧ cursor.take.2.Sound := by
  unfold take
  split
  · next head hpeeked =>
    refine ⟨?_, h.buffered, nofun⟩
    cases head with
    | lexeme lexeme => simp [stream, hpeeked, TokenStream.take, raws]
    | finish offset comments =>
      obtain ⟨hraws, rfl⟩ := h.peeked offset comments hpeeked
      have hraws' : ({ cursor with peeked := none } : Cursor).raws = [] := hraws
      simp [stream, hpeeked, hraws', TokenStream.take, TokenStream.group]
  · next hpeeked =>
    obtain ⟨htake, hsound, -, -⟩ := read_stream h hpeeked
    exact ⟨htake, hsound⟩

/-- A cursor gives the answers of its stream. -/
theorem answers_stream (h : cursor.Sound) (calls : List Call) :
    cursor.answers calls = cursor.stream.answers calls := by
  induction calls generalizing cursor with
  | nil => rfl
  | cons call calls ih =>
    cases call with
    | peek =>
      obtain ⟨hhead, hstream, hsound⟩ := peek_stream h
      rw [answers, TokenStream.answers, ← hhead, ← hstream, ← ih hsound]
      rfl
    | take =>
      obtain ⟨htake, hsound⟩ := take_stream h
      rw [answers, TokenStream.answers, htake, ← ih hsound]
      rfl

end Cursor

/-! ### Sequences of calls -/

namespace TokenStream

/-- Everything that stands in a stream, one after the other up to the end of the text. -/
def heads (stream : TokenStream) : List Head :=
  stream.drain.1

/-- However often a stream is looked at, it shows what is then taken. -/
theorem answers_peeks (stream : TokenStream) (calls : List Cursor.Call) (n : Nat) :
    ∃ head, stream.answers (calls ++ List.replicate n .peek ++ [.take]) =
      stream.answers calls ++ List.replicate (n + 1) head := by
  induction calls generalizing stream with
  | nil =>
    refine ⟨stream.peek, ?_⟩
    induction n with
    | zero => simp [answers, fst_take]
    | succ n ih =>
      rw [List.replicate_succ, List.replicate_succ (n := n + 1)]
      exact congrArg (stream.peek :: ·) ih
  | cons call calls ih =>
    cases call with
    | peek =>
      obtain ⟨head, h⟩ := ih stream
      exact ⟨head, congrArg (stream.peek :: ·) h⟩
    | take =>
      obtain ⟨head, h⟩ := ih stream.take.2
      exact ⟨head, congrArg (stream.take.1 :: ·) h⟩

/-- The lexemes of a stream are taken in turn, then its end, and then the end without comments. -/
theorem taken_answers (stream : TokenStream) (calls : List Cursor.Call) :
    ((calls.zip (stream.answers calls)).filter (·.1 = .take)).map Prod.snd =
      (List.range (calls.count .take)).map fun n => stream.heads.getD n (.finish stream.size []) := by
  induction calls generalizing stream with
  | nil => rfl
  | cons call calls ih =>
    cases call with
    | peek => simpa [answers] using ih stream
    | take =>
      rw [answers, List.zip_cons_cons, List.filter_cons_of_pos (by simp), List.map_cons, ih,
        List.count_cons_self, List.range_succ_eq_map, List.map_cons, List.map_map]
      obtain ⟨lexemes, trailing, size⟩ := stream
      cases lexemes with
      | nil =>
        refine congrArg (Head.finish size trailing :: ·) (List.map_congr_left fun n _ => ?_)
        cases n <;> rfl
      | cons lexeme lexemes => rfl

end TokenStream

end GraphQLTree
