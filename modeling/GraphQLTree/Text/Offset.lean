import GraphQLTree.Text.Utf8

/-!
# Cutting at offsets

An offset in bytes cuts a text where a character starts and at its end, and nowhere else: what is cut
otherwise is nothing, as an offset inside a character or behind the end is always a mistake. A
**window** is a text together with two such offsets, between which stands the part that was read last.
-/

namespace GraphQLTree.Text

/-- The two parts of a text before and behind an offset, if it doesn't lie inside a character or behind
the end. -/
def cutAt? : Nat → List Char → Option (List Char × List Char)
  | 0, cs => some ([], cs)
  | _ + 1, [] => none
  | n + 1, c :: cs =>
    if c.utf8Size ≤ n + 1 then
      (cutAt? (n + 1 - c.utf8Size) cs).map fun (before, after) => (c :: before, after)
    else none

/-- The part of a text behind an offset. -/
def dropAt? (n : Nat) (cs : List Char) : Option (List Char) :=
  (cutAt? n cs).map Prod.snd

/-- The part of a text between two offsets. -/
def slice? (start stop : Nat) (cs : List Char) : Option (List Char) := do
  let rest ← dropAt? start cs
  if start ≤ stop then (cutAt? (stop - start) rest).map Prod.fst else none

theorem cutAt?_append (before after : List Char) :
    cutAt? (utf8Length before) (before ++ after) = some (before, after) := by
  induction before with
  | nil => simp [utf8Length, cutAt?]
  | cons c before ih =>
    obtain ⟨n, hn⟩ : ∃ n, utf8Length (c :: before) = n + 1 :=
      ⟨utf8Length (c :: before) - 1, by have := c.utf8Size_pos; rw [utf8Length_cons]; omega⟩
    have hsize : n + 1 - c.utf8Size = utf8Length before := by rw [← hn, utf8Length_cons]; omega
    rw [hn, List.cons_append, cutAt?, if_pos (by rw [← hn, utf8Length_cons]; omega), hsize, ih]
    rfl

theorem eq_of_cutAt? {n : Nat} {cs before after : List Char} (h : cutAt? n cs = some (before, after)) :
    cs = before ++ after ∧ utf8Length before = n := by
  fun_induction cutAt? n cs generalizing before with
  | case1 cs =>
    obtain ⟨rfl, rfl⟩ := Prod.mk.inj (Option.some.inj h)
    exact ⟨rfl, rfl⟩
  | case2 n => cases h
  | case3 n c cs hle ih =>
    obtain ⟨⟨before, after⟩, hcut, he⟩ := Option.map_eq_some_iff.1 h
    obtain ⟨rfl, rfl⟩ := Prod.mk.inj he
    obtain ⟨rfl, hlength⟩ := ih hcut
    exact ⟨rfl, by rw [utf8Length_cons, hlength]; omega⟩
  | case4 n c cs hle => cases h

theorem cutAt?_eq_some_iff {n : Nat} {cs before after : List Char} :
    cutAt? n cs = some (before, after) ↔ cs = before ++ after ∧ utf8Length before = n := by
  refine ⟨eq_of_cutAt?, ?_⟩
  rintro ⟨rfl, rfl⟩
  exact cutAt?_append before after

/-- A text has a part behind an offset if and only if the offset is the length of what is before it. -/
theorem dropAt?_eq_some_iff {n : Nat} {cs rest : List Char} :
    dropAt? n cs = some rest ↔ ∃ before, cs = before ++ rest ∧ utf8Length before = n := by
  rw [dropAt?, Option.map_eq_some_iff]
  constructor
  · rintro ⟨⟨before, after⟩, hcut, rfl⟩
    exact ⟨before, eq_of_cutAt? hcut⟩
  · rintro ⟨before, rfl, rfl⟩
    exact ⟨_, cutAt?_append before rest, rfl⟩

/-- A text has a part between two offsets if and only if they are lengths of what is before its start and
before its end. -/
theorem slice?_eq_some_iff {start stop : Nat} {cs inside : List Char} :
    slice? start stop cs = some inside ↔ ∃ before after, cs = before ++ (inside ++ after) ∧
      utf8Length before = start ∧ start + utf8Length inside = stop := by
  unfold slice?
  rw [Option.bind_eq_bind, Option.bind_eq_some_iff]
  constructor
  · rintro ⟨rest, hdrop, h⟩
    obtain ⟨before, rfl, hstart⟩ := dropAt?_eq_some_iff.1 hdrop
    obtain ⟨hle, h⟩ := Option.ite_none_right_eq_some.1 h
    obtain ⟨⟨inside, after⟩, hcut, rfl⟩ := Option.map_eq_some_iff.1 h
    obtain ⟨rfl, hlength⟩ := eq_of_cutAt? hcut
    exact ⟨before, after, rfl, hstart, by dsimp only; omega⟩
  · rintro ⟨before, after, rfl, rfl, rfl⟩
    refine ⟨_, dropAt?_eq_some_iff.2 ⟨before, rfl, rfl⟩, ?_⟩
    rw [if_pos (Nat.le_add_right _ _), Nat.add_sub_cancel_left, cutAt?_append]
    rfl

/-! ### Windows -/

/-- A text and the part of it that was read last. Reading goes on behind that part. -/
structure Window where
  text : List Char
  start : Nat
  stop : Nat
  deriving DecidableEq

namespace Window

/-- The window on a text of which nothing has been read. -/
def ofList (cs : List Char) : Window :=
  ⟨cs, 0, 0⟩

/-- The part that was read last. -/
def slice? (window : Window) : Option (List Char) :=
  Text.slice? window.start window.stop window.text

/-- What hasn't been read yet. -/
def remainder? (window : Window) : Option (List Char) :=
  dropAt? window.stop window.text

/-- Reads a number of bytes, which become the part that was read last. -/
def next (window : Window) (size : Nat) : Window :=
  ⟨window.text, window.stop, window.stop + size⟩

/-- Makes the part that was read last longer by a number of bytes. -/
def bump? (window : Window) (size : Nat) : Option Window :=
  (cutAt? (window.stop + size) window.text).map fun _ => { window with stop := window.stop + size }

/-- Reads what a scanner finds at the start of the remainder, which it measures in characters. There is
nothing to be found at the end of the text. -/
def scan? {α : Type} (scanner : List Char → α × Nat) (window : Window) :
    Option (Option (α × Window)) := do
  match ← window.remainder? with
  | [] => return none
  | c :: cs =>
    let (found, size) := scanner (c :: cs)
    return some (found, window.next (utf8Length ((c :: cs).take size)))

/-- The window around a part of a text. All windows are of this form whose offsets can be cut at. -/
def around (before inside after : List Char) : Window :=
  ⟨before ++ (inside ++ after), utf8Length before, utf8Length before + utf8Length inside⟩

section around

variable (before inside after text : List Char)

theorem ofList_eq : ofList text = around [] [] text :=
  rfl

@[simp] theorem slice?_around : (around before inside after).slice? = some inside :=
  slice?_eq_some_iff.2 ⟨before, after, rfl, rfl, rfl⟩

@[simp] theorem remainder?_around : (around before inside after).remainder? = some after :=
  dropAt?_eq_some_iff.2 ⟨before ++ inside, (List.append_assoc _ _ _).symm, utf8Length_append _ _⟩

@[simp] theorem next_around : (around before inside (text ++ after)).next (utf8Length text) =
    around (before ++ inside) text after := by
  simp [around, next, utf8Length_append]

@[simp] theorem next_take (size : Nat) : (around before inside text).next
    (utf8Length (text.take size)) = around (before ++ inside) (text.take size) (text.drop size) := by
  have h := next_around before inside (text.drop size) (text.take size)
  rwa [List.take_append_drop] at h

@[simp] theorem bump?_around : (around before inside (text ++ after)).bump? (utf8Length text) =
    some (around before (inside ++ text) after) := by
  have hcut : cutAt? (utf8Length before + utf8Length inside + utf8Length text)
      (before ++ (inside ++ (text ++ after))) = some (before ++ inside ++ text, after) :=
    cutAt?_eq_some_iff.2 ⟨by simp, by simp only [utf8Length_append]⟩
  rw [bump?, around, hcut]
  simp [around, utf8Length_append, Nat.add_assoc]

@[simp] theorem bump?_take (size : Nat) : (around before inside text).bump?
    (utf8Length (text.take size)) = some (around before (inside ++ text.take size) (text.drop size)) := by
  have h := bump?_around before inside (text.drop size) (text.take size)
  rwa [List.take_append_drop] at h

variable {α : Type} {scanner : List Char → α × Nat}

@[simp] theorem scan?_around_nil : (around before inside []).scan? scanner = some none := by
  simp [scan?]

/-- What is scanned is cut from the remainder. -/
theorem scan?_around {text : List Char} {found : α} (hne : text ≠ [])
    (h : scanner (text ++ after) = (found, text.length)) :
    (around before inside (text ++ after)).scan? scanner =
      some (some (found, around (before ++ inside) text after)) := by
  obtain ⟨c, text, rfl⟩ := List.exists_cons_of_ne_nil hne
  have hnext := next_around before inside after (c :: text)
  rw [List.cons_append] at h hnext ⊢
  simp only [scan?, remainder?_around, Option.bind_eq_bind, Option.bind_some, h]
  rw [List.length_cons, List.take_succ_cons, List.take_left, hnext]
  rfl

end around

/-- How many bytes of the text haven't been read yet. -/
def left (window : Window) : Nat :=
  utf8Length window.text - window.stop

/-- Whether a window is another one in which reading has gone on. -/
structure Follows (window before : Window) : Prop where
  text : window.text = before.text
  stop : before.stop ≤ window.stop

theorem Follows.left_lt {window middle before : Window} (h : window.Follows middle)
    (hmiddle : middle.text = before.text) (hstop : before.stop < middle.stop)
    (hend : before.stop < utf8Length before.text) : window.left < before.left := by
  have hle := h.stop
  rw [left, left, h.text, hmiddle]
  omega

/-- Scanning goes on if there is a character left. -/
theorem lt_of_scan? {α : Type} {scanner : List Char → α × Nat} {window next : Window} {found : α}
    (hpos : ∀ c cs, 0 < (scanner (c :: cs)).2) (h : window.scan? scanner = some (some (found, next))) :
    next.text = window.text ∧ window.stop < next.stop ∧ window.stop < utf8Length window.text := by
  obtain ⟨rest, hrest, h⟩ := Option.bind_eq_some_iff.1 h
  obtain ⟨before, htext, hlength⟩ := dropAt?_eq_some_iff.1 hrest
  match rest, hpos with
  | c :: cs, hpos =>
    obtain ⟨rfl, rfl⟩ := Prod.mk.inj (Option.some.inj (Option.some.inj h))
    obtain ⟨n, hn⟩ := Nat.exists_eq_succ_of_ne_zero (Nat.ne_of_gt (hpos c cs))
    have := c.utf8Size_pos
    refine ⟨rfl, ?_, ?_⟩
    · rw [hn, List.take_succ_cons, utf8Length_cons]
      exact Nat.lt_add_of_pos_right (Nat.add_pos_left this _)
    · rw [htext, utf8Length_append, utf8Length_cons]
      omega

end Window

end GraphQLTree.Text
