import GraphQLTree.Token.Stream

/-!
# Cursors

A **cursor** reads the lexemes of a text while the text is scanned. To know whether a comment
belongs to a token, it scans one scrap more than the token; a scrap that turns out to be no inline
comment is **buffered** and read again as the start of the next lexeme. What was looked at without
being taken is **peeked**, and the next call gives it again. A `TokenStream` has read all of the text
before the first lexeme is taken, a cursor never reads more than it has to.
-/

namespace GraphQLTree

open TokenStream (Head)

/-- The state of a reader that scans on demand. -/
structure Cursor where
  /-- The scraps that the scanner has not given yet. -/
  ahead : List (Scrap × Span)
  /-- The length of the whole text in bytes. -/
  size : Nat
  /-- What was scanned behind the last token and doesn't belong to it, where nothing stands for the
  end of the text. -/
  buffered : Option (Option (Scrap × Span))
  /-- What was looked at and not taken. -/
  peeked : Option Head

namespace Cursor

/-- The cursor at the start of a text. -/
def ofText (text : String) : Cursor :=
  ⟨Scrap.located text.toList, Text.utf8Length text.toList, none, none⟩

/-- The next scrap, or nothing at the end of the text. The buffer goes before the scanner. -/
def nextRaw (cursor : Cursor) : Option (Scrap × Span) × Cursor :=
  match cursor.buffered, cursor.ahead with
  | some raw, _ => (raw, { cursor with buffered := none })
  | none, raw :: rest => (some raw, { cursor with ahead := rest })
  | none, [] => (none, cursor)

/-- How many scraps are left at most, where the end of the text counts if it is buffered. -/
def left (cursor : Cursor) : Nat :=
  cursor.buffered.toList.length + cursor.ahead.length

theorem left_nextRaw {cursor next : Cursor} {raw : Scrap × Span}
    (h : cursor.nextRaw = (some raw, next)) : next.left < cursor.left := by
  unfold nextRaw at h
  split at h
  · next buffered =>
    obtain ⟨-, rfl⟩ := Prod.mk.injEq .. ▸ h
    simp [left, buffered]
  · next buffered ahead =>
    obtain ⟨-, rfl⟩ := Prod.mk.injEq .. ▸ h
    simp [left, buffered, ahead]
  · cases h

/-- The comments from a cursor on, added to some, then the first scrap that is none. -/
def skipComments (comments : List Comment) (cursor : Cursor) :
    List Comment × Option (Scrap × Span) × Cursor :=
  match _h : cursor.nextRaw with
  | (some (⟨_, .comment text, _⟩, _), next) => skipComments (comments ++ [⟨false, text⟩]) next
  | (raw, next) => (comments, raw, next)
termination_by cursor.left
decreasing_by exact left_nextRaw _h

/-- The comment behind a token on the token's line, if there is one. What is scanned in vain is
buffered. -/
def readInline (cursor : Cursor) : List Comment × Cursor :=
  match cursor.nextRaw with
  | (some (⟨gap, .comment text, written⟩, span), next) =>
    if Text.hasLineBreak gap then
      ([], { next with buffered := some (some (⟨gap, .comment text, written⟩, span)) })
    else ([⟨true, text⟩], next)
  | (raw, next) => ([], { next with buffered := some raw })

/-- Reads a lexeme. Nothing is scanned behind an invalid token or the end of the text. -/
def read (cursor : Cursor) : Head × Cursor :=
  match skipComments [] cursor with
  | (comments, none, next) => (.finish next.size comments, next)
  | (comments, some (scrap, span), next) =>
    if scrap.token = .invalid then (.lexeme ⟨scrap.token, span, comments⟩, next)
    else
      let (inline, last) := next.readInline
      (.lexeme ⟨scrap.token, span, comments ++ inline⟩, last)

/-- What stands next, without taking it. -/
def peek (cursor : Cursor) : Head × Cursor :=
  match cursor.peeked with
  | some head => (head, cursor)
  | none =>
    let (head, next) := cursor.read
    (head, { next with peeked := some head })

/-- What stands next, and the cursor after it. -/
def take (cursor : Cursor) : Head × Cursor :=
  match cursor.peeked with
  | some head => (head, { cursor with peeked := none })
  | none => cursor.read

/-! ### Sequences of calls -/

/-- What a reader can be asked for. -/
inductive Call where
  | peek
  | take
  deriving DecidableEq

/-- Answers a call. -/
def answer (cursor : Cursor) : Call → Head × Cursor
  | .peek => cursor.peek
  | .take => cursor.take

/-- The answers to a sequence of calls. -/
def answers (cursor : Cursor) : List Call → List Head
  | [] => []
  | call :: calls =>
    let (head, next) := cursor.answer call
    head :: next.answers calls

/-- The answers to the calls of a sequence that take something. -/
def taken (cursor : Cursor) (calls : List Call) : List Head :=
  ((calls.zip (cursor.answers calls)).filter (·.1 = .take)).map Prod.snd

end Cursor

/-- The answers of a stream to a sequence of calls. -/
def TokenStream.answers (stream : TokenStream) : List Cursor.Call → List Head
  | [] => []
  | .peek :: calls => stream.peek :: stream.answers calls
  | .take :: calls => stream.take.1 :: stream.take.2.answers calls

end GraphQLTree
