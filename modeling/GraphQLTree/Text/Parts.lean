import GraphQLTree.Text.BlockString
import GraphQLTree.Text.Offset
import GraphQLTree.Text.Quoted

/-!
# Strings in parts

How strings are read in one pass over a text that is kept in a window. A quoted string without escapes
is sliced from the text as it stands. From its first backslash on, any other is cut into **parts** by a
scanner of its own, which works on a window of its own, and what the parts stand for is put together. A
block string is cut into parts from the start. When a string can't be read, the window stays where it
was moved to before that showed.

In all of this there are two ways to get nothing: `none` says that the text was to be cut where it can't
be cut, `some none` that no string can be read.
-/

namespace GraphQLTree.Text

/-- A reader of hexadecimal numbers, and what is relied on of it: it reads digits, unless their number
doesn't fit 32 bits, and it reads nothing else but a sign in front of them. -/
structure HexReader where
  read : List Char → Option Nat
  read_digits : ∀ digits, digits ≠ [] → (∀ d ∈ digits, isHexDigit d = true) →
    read digits = if hexNumber digits < UInt32.size then some (hexNumber digits) else none
  digits_of_read : ∀ cs n, read cs = some n → ∃ sign digits, cs = sign ++ digits ∧
    sign ∈ [[], ['+'], ['-']] ∧ (∀ d ∈ digits, isHexDigit d = true) ∧ n = hexNumber digits

/-- The reader of digits without a sign. -/
def HexReader.unsigned : HexReader where
  read cs :=
    if !cs.isEmpty && cs.all isHexDigit && hexNumber cs < UInt32.size then some (hexNumber cs) else none
  read_digits digits hne hdigits := by
    simp [hne, List.all_eq_true.2 hdigits]
  digits_of_read cs n h := by
    obtain ⟨hcs, he⟩ := Option.ite_none_right_eq_some.1 h
    simp only [Bool.and_eq_true] at hcs
    exact ⟨[], cs, rfl, by simp, List.all_eq_true.1 hcs.1.2, (Option.some.inj he).symm⟩

/-! ### Quoted strings -/

/-- The first character that doesn't stand for itself, with its offset. -/
def plainEnd? (offset : Nat) : List Char → Option (Char × Nat)
  | [] => none
  | c :: cs => if isPlain c then plainEnd? (offset + c.utf8Size) cs else some (c, offset)

/-- The parts of a quoted string with escapes. -/
inductive StringPart where
  /-- Characters that stand for themselves. -/
  | plain
  /-- A backslash and a letter or sign, with the character that the two stand for. -/
  | simple (meaning : Char)
  /-- An escape of four digits. -/
  | fixed
  /-- An escape with digits in braces. -/
  | braced
  /-- The closing quote. -/
  | finish
  /-- A character that no part starts with. -/
  | invalid
  deriving DecidableEq

namespace StringPart

/-- The part that a text starts with, and its length. -/
def scan : List Char → StringPart × Nat
  | '"' :: _ => (finish, 1)
  | '\\' :: 'u' :: '\x7b' :: cs =>
    let digits := cs.takeWhile isHexDigit
    if digits.isEmpty || (cs.drop digits.length).head? != some '\x7d' then (invalid, 1)
    else (braced, digits.length + 4)
  | '\\' :: 'u' :: cs => if (fourDigits? cs).isSome then (fixed, 6) else (invalid, 1)
  | '\\' :: c :: _ =>
    match simpleEscape? c with
    | some meaning => (simple meaning, 2)
    | none => (invalid, 1)
  | cs =>
    let run := cs.takeWhile isPlain
    if run.isEmpty then (invalid, 1) else (plain, run.length)

/-- The second half of a surrogate pair, as an escape at the start of a text. -/
def low? (hex : HexReader) : List Char → Option Nat
  | '\\' :: 'u' :: cs =>
    ((cutAt? 4 cs).bind fun (digits, _) => hex.read digits).filter fun n =>
      0xDC00 ≤ n && n ≤ 0xDFFF
  | _ => none

/-- What the part that was read last stands for. The first half of a surrogate pair takes the second
half with it, which makes the part that was read longer. -/
def read? (hex : HexReader) (window : Window) : StringPart → Option (Option (List Char × Window))
  | plain => do
    let run ← window.slice?
    return some (run, window)
  | simple meaning => return some ([meaning], window)
  | fixed => do
    let escape ← window.slice?
    let digits ← dropAt? 2 escape
    let rest ← window.remainder?
    match hex.read digits with
    | none => return none
    | some code =>
      match if 0xD800 ≤ code ∧ code ≤ 0xDBFF then low? hex rest else none with
      | some low => do
        let longer ← window.bump? 6
        return (scalar? (combineSurrogates code low)).map fun c => ([c], longer)
      | none => return (scalar? code).map fun c => ([c], window)
  | braced => do
    let escape ← window.slice?
    let digits ← Text.slice? 3 (utf8Length escape - 1) escape
    return ((hex.read digits).bind scalar?).map fun c => ([c], window)
  | finish => return some ([], window)
  | invalid => return none

/-- Reads the next part: which one it is, and what it stands for. -/
def next? (hex : HexReader) (window : Window) :
    Option (Option (StringPart × List Char × Window)) := do
  match ← window.scan? scan with
  | none => return none
  | some (part, next) => return (← part.read? hex next).map (part, ·)

theorem scan_pos (c : Char) (cs : List Char) : 0 < (scan (c :: cs)).2 := by
  unfold scan
  split
  · exact Nat.one_pos
  · dsimp only
    split <;> simp
  · split <;> simp
  · split <;> simp
  · dsimp only
    split
    · simp
    · next h => exact List.length_pos_iff.2 fun hnil => h (by rw [hnil]; rfl)

theorem follows_of_read? {hex : HexReader} {window after : Window} {part : StringPart}
    {meaning : List Char} (h : part.read? hex window = some (some (meaning, after))) :
    after.Follows window := by
  have hself : window.Follows window := ⟨rfl, Nat.le_refl _⟩
  have hmap {window' : Window} {found : Option Char}
      (h : some (found.map fun c => ([c], window')) = some (some (meaning, after))) :
      after = window' := by
    obtain ⟨c, -, he⟩ := Option.map_eq_some_iff.1 (Option.some.inj h)
    exact (Prod.mk.inj he).2.symm
  cases part with
  | plain =>
    obtain ⟨run, -, h⟩ := Option.bind_eq_some_iff.1 h
    obtain ⟨-, rfl⟩ := Prod.mk.inj (Option.some.inj (Option.some.inj h))
    exact hself
  | simple c =>
    obtain ⟨-, rfl⟩ := Prod.mk.inj (Option.some.inj (Option.some.inj h))
    exact hself
  | fixed =>
    obtain ⟨escape, -, h⟩ := Option.bind_eq_some_iff.1 h
    obtain ⟨digits, -, h⟩ := Option.bind_eq_some_iff.1 h
    obtain ⟨rest, -, h⟩ := Option.bind_eq_some_iff.1 h
    split at h
    · cases h
    split at h
    · obtain ⟨longer, hbump, h⟩ := Option.bind_eq_some_iff.1 h
      obtain ⟨cut, -, rfl⟩ := Option.map_eq_some_iff.1 hbump
      rw [hmap h]
      exact ⟨rfl, Nat.le_add_right _ _⟩
    · rwa [hmap h]
  | braced =>
    obtain ⟨escape, -, h⟩ := Option.bind_eq_some_iff.1 h
    obtain ⟨digits, -, h⟩ := Option.bind_eq_some_iff.1 h
    rwa [hmap h]
  | finish =>
    obtain ⟨-, rfl⟩ := Prod.mk.inj (Option.some.inj (Option.some.inj h))
    exact hself
  | invalid => cases h

theorem left_lt_of_next? {hex : HexReader} {window after : Window} {part : StringPart}
    {meaning : List Char} (h : next? hex window = some (some (part, meaning, after))) :
    after.left < window.left := by
  obtain ⟨found, hscan, h⟩ := Option.bind_eq_some_iff.1 h
  match found, h with
  | some (part', next), h =>
    obtain ⟨read, hread, h⟩ := Option.bind_eq_some_iff.1 h
    obtain ⟨⟨meaning', after'⟩, rfl, he⟩ := Option.map_eq_some_iff.1 (Option.some.inj h)
    obtain ⟨rfl, rfl, rfl⟩ := by simpa using he
    obtain ⟨htext, hstop, hend⟩ := Window.lt_of_scan? scan_pos hscan
    exact (follows_of_read? hread).left_lt htext hstop hend

/-- Reads parts up to the closing quote and puts what they stand for behind some output. Gives all
output and the offset behind the quote. -/
def readAll? (hex : HexReader) (window : Window) (output : List Char) :
    Option (Option (List Char × Nat)) :=
  match _h : next? hex window with
  | none => none
  | some none => some none
  | some (some (part, meaning, after)) =>
    if part = finish then some (some (output, after.stop))
    else readAll? hex after (output ++ meaning)
termination_by window.left
decreasing_by exact left_lt_of_next? _h

end StringPart

/-- Reads on in a quoted string in front of its first escape, behind the output so far. -/
def readEscaped? (hex : HexReader) (output : List Char) (window : Window) :
    Option (Option (List Char) × Window) := do
  let rest ← window.remainder?
  match ← StringPart.readAll? hex (.ofList rest) output with
  | none => return (none, window)
  | some (value, size) => return (some value, ← window.bump? size)

/-- Reads the rest of a quoted string behind its opening quote. -/
def readString? (hex : HexReader) (window : Window) : Option (Option (List Char) × Window) := do
  let rest ← window.remainder?
  match plainEnd? 0 rest with
  | some ('\\', offset) => readEscaped? hex (← slice? 0 offset rest) (← window.bump? offset)
  | some ('"', offset) => return (some (← slice? 0 offset rest), ← window.bump? (offset + 1))
  | _ => return (none, window)

/-! ### Block strings -/

/-- The parts of a block string. -/
inductive BlockPart where
  /-- Characters other than quotes and backslashes. -/
  | plain
  /-- A quote. -/
  | quote
  /-- A backslash. -/
  | backslash
  /-- A backslash and three quotes, which stand for the quotes. -/
  | escape
  /-- The closing quotes. -/
  | finish
  deriving DecidableEq

namespace BlockPart

/-- Whether a character stands for itself in a block string, whatever is around it. -/
def isPlain (c : Char) : Bool :=
  c != '"' && c != '\\'

theorem isPlain_iff {c : Char} : isPlain c = true ↔ c ≠ '"' ∧ c ≠ '\\' := by
  simp [isPlain]

/-- The part that a text starts with, and its length. -/
def scan : List Char → BlockPart × Nat
  | '\\' :: '"' :: '"' :: '"' :: _ => (escape, 4)
  | '\\' :: _ => (backslash, 1)
  | '"' :: '"' :: '"' :: _ => (finish, 3)
  | '"' :: _ => (quote, 1)
  | cs => (plain, (cs.takeWhile isPlain).length)

theorem scan_pos (c : Char) (cs : List Char) : 0 < (scan (c :: cs)).2 := by
  unfold scan
  split
  · simp
  · simp
  · simp
  · simp
  · next hslash _ hquote =>
    have hc : isPlain c = true :=
      isPlain_iff.2 ⟨fun h => hquote cs (by rw [h]), fun h => hslash cs (by rw [h])⟩
    simp [hc]

theorem left_lt_of_scan? {window next : Window} {part : BlockPart}
    (h : window.scan? scan = some (some (part, next))) : next.left < window.left := by
  obtain ⟨htext, hstop, hend⟩ := Window.lt_of_scan? scan_pos h
  exact Window.Follows.left_lt ⟨rfl, Nat.le_refl _⟩ htext hstop hend

/-- Reads parts up to the closing quotes and puts what they stand for behind some raw text. Gives all
raw text and the offset behind the quotes. -/
def readAll? (window : Window) (raw : List Char) : Option (Option (List Char × Nat)) :=
  match _h : window.scan? scan with
  | none => none
  | some none => some none
  | some (some (finish, next)) => some (some (raw, next.stop))
  | some (some (escape, next)) => readAll? next (raw ++ blockQuotes)
  | some (some (_, next)) =>
    match next.slice? with
    | none => none
    | some text => readAll? next (raw ++ text)
termination_by window.left
decreasing_by all_goals exact left_lt_of_scan? _h

end BlockPart

/-- Reads the rest of a block string behind its opening quotes. -/
def readBlockString? (window : Window) : Option (Option (List Char) × Window) := do
  let rest ← window.remainder?
  match ← BlockPart.readAll? (.ofList rest) [] with
  | none => return (none, window)
  | some (raw, size) => return (some (dedent raw), ← window.bump? size)

end GraphQLTree.Text
