import GraphQLTree.Tree.Path
import Mathlib.Data.List.Forall2
import Mathlib.Data.List.Induction

/-!
# Written paths

A text **spells** a segment if it is the name of a slot, or the decimal digits of an index that is small
enough, which may have zeros and one plus in front of them. A text spells a path if its pieces between
dots spell the segments of the path; the empty text spells the empty path and no other. Texts are read as
the paths that they spell (`Path.ofText_eq_ok_iff`), so a path with small indices is read again from what
it is written as (`Path.ofText_text`). Paths of any indices are told apart by what they are written as
(`Path.text_injective`).
-/

namespace GraphQLTree

/-! ### Slots -/

namespace Slot

theorem ofText?_text (slot : Slot) : ofText? slot.text = some slot := by
  cases slot <;> decide

theorem ofText?_eq_some_iff {text : String} {slot : Slot} :
    ofText? text = some slot ↔ text = slot.text := by
  refine ⟨fun h => ?_, fun h => h ▸ slot.ofText?_text⟩
  have hfound : (slot.text == text) = true :=
    List.find?_some (p := fun slot : Slot => slot.text == text) h
  exact (eq_of_beq hfound).symm

end Slot

namespace Segment

/-! ### Decimal numbers -/

/-- Whether a text spells a number: the number's decimal digits, with any zeros in front of them. -/
def SpellsNumber (cs : List Char) (n : Nat) : Prop :=
  ∃ zeros, cs = List.replicate zeros '0' ++ Nat.toDigits 10 n

theorem decimalNumber_append (a b : List Char) :
    decimalNumber (a ++ b) = Nat.ofDigitChars 10 b (decimalNumber a) :=
  Nat.ofDigitChars_append 0

theorem SpellsNumber.decimalNumber_eq {cs : List Char} {n : Nat} (h : SpellsNumber cs n) :
    decimalNumber cs = n := by
  obtain ⟨zeros, rfl⟩ := h
  have hzeros : decimalNumber (List.replicate zeros '0') = 0 :=
    Nat.ofDigitChars_replicate_zero.trans (Nat.mul_zero _)
  rw [decimalNumber_append, hzeros, Nat.ofDigitChars_ten_toDigits]

theorem SpellsNumber.isDigit {cs : List Char} {n : Nat} (h : SpellsNumber cs n) :
    ∀ c ∈ cs, c.isDigit = true := by
  obtain ⟨zeros, rfl⟩ := h
  intro c hc
  rcases List.mem_append.1 hc with hc | hc
  · rw [List.eq_of_mem_replicate hc]
    rfl
  · exact Nat.isDigit_of_mem_toDigits (by decide) (by decide) hc

private theorem exists_digit {c : Char} (h : c.isDigit = true) :
    ∃ d < 10, Nat.toDigits 10 d = [c] ∧ c.toNat - '0'.toNat = d := by
  have hc : 48 ≤ c.toNat ∧ c.toNat ≤ 57 := by
    simpa [Char.isDigit, UInt32.le_iff_toNat_le] using h
  refine ⟨c.toNat - 48, by omega, ?_, rfl⟩
  have hchar : (c.toNat - 48).digitChar = c := by
    rw [← Char.toNat_inj, Nat.toNat_digitChar_of_lt_ten (by omega)]
    omega
  rw [Nat.toDigits_of_lt_base (by omega), hchar]

/-- Decimal digits spell the number that is read from them. -/
theorem spellsNumber_decimalNumber {cs : List Char} (hne : cs ≠ [])
    (h : ∀ c ∈ cs, c.isDigit = true) : SpellsNumber cs (decimalNumber cs) := by
  induction cs using List.reverseRecOn with
  | nil => exact absurd rfl hne
  | append_singleton cs c ih =>
    obtain ⟨hcs, hc⟩ := List.forall_mem_append.1 h
    obtain ⟨d, hd, hdigit, hvalue⟩ := exists_digit (hc c List.mem_cons_self)
    have hnumber : decimalNumber (cs ++ [c]) = 10 * decimalNumber cs + d := by
      rw [decimalNumber_append, ← hvalue]
      simp [Nat.ofDigitChars_cons, Nat.ofDigitChars_nil]
    rw [hnumber]
    by_cases hnil : cs = []
    · subst hnil
      exact ⟨0, by simp [decimalNumber, hdigit]⟩
    · obtain ⟨zeros, heq⟩ := ih hnil hcs
      rcases Nat.eq_zero_or_pos (decimalNumber cs) with hzero | hpos
      · -- Digits of zero alone are zeros in front of the last digit.
        refine ⟨zeros + 1, ?_⟩
        rw [hzero] at heq ⊢
        rw [heq, Nat.toDigits_zero, Nat.mul_zero, Nat.zero_add, hdigit, List.replicate_succ']
      · refine ⟨zeros, ?_⟩
        calc cs ++ [c]
            = List.replicate zeros '0' ++ (Nat.toDigits 10 (decimalNumber cs) ++ [c]) := by
              rw [← List.append_assoc, ← heq]
          _ = List.replicate zeros '0' ++ Nat.toDigits 10 (10 * decimalNumber cs + d) := by
              rw [← hdigit, Nat.toDigits_append_toDigits (by decide) hpos hd]

theorem spellsNumber_iff {cs : List Char} {n : Nat} :
    SpellsNumber cs n ↔ cs ≠ [] ∧ (∀ c ∈ cs, c.isDigit = true) ∧ decimalNumber cs = n := by
  constructor
  · intro h
    refine ⟨?_, h.isDigit, h.decimalNumber_eq⟩
    obtain ⟨zeros, rfl⟩ := h
    simp [Nat.toDigits_ne_nil]
  · rintro ⟨hne, hdigits, rfl⟩
    exact spellsNumber_decimalNumber hne hdigits

/-! ### Indices -/

/-- Whether a text spells an index: a number, with at most one plus in front of it. -/
def SpellsIndex (cs : List Char) (n : Nat) : Prop :=
  SpellsNumber cs n ∨ ∃ digits, cs = '+' :: digits ∧ SpellsNumber digits n

theorem not_spellsNumber_plus (digits : List Char) (n : Nat) : ¬ SpellsNumber ('+' :: digits) n :=
  fun h => nomatch h.isDigit '+' List.mem_cons_self

/-- A text is read as the index that it spells, if the index is below the limit. -/
theorem index?_eq_some_iff {cs : List Char} {n : Nat} :
    index? cs = some n ↔ SpellsIndex cs n ∧ n < indexLimit := by
  have hread (digits : List Char) :
      (if (digits.isEmpty || !digits.all fun c => '0' ≤ c && c ≤ '9') = true then none
        else if decimalNumber digits < indexLimit then some (decimalNumber digits) else none) =
        some n ↔ SpellsNumber digits n ∧ n < indexLimit := by
    have hall : (digits.all fun c => '0' ≤ c && c ≤ '9') = true ↔
        ∀ c ∈ digits, c.isDigit = true := by
      rw [List.all_eq_true]
      rfl
    rw [spellsNumber_iff, ← hall]
    cases digits with
    | nil => simp
    | cons c digits =>
      cases (c :: digits).all fun c => '0' ≤ c && c ≤ '9' with
      | false => simp
      | true =>
        simp only [List.isEmpty_cons, Bool.not_true, Bool.or_self, Bool.false_eq_true, if_false,
          Option.ite_none_right_eq_some, Option.some.injEq, ne_eq, reduceCtorEq, not_false_eq_true,
          true_and]
        exact ⟨fun ⟨hlt, he⟩ => ⟨he, he ▸ hlt⟩, fun ⟨he, hlt⟩ => ⟨he ▸ hlt, he⟩⟩
  by_cases hplus : cs.head? = some '+'
  · obtain ⟨digits, rfl⟩ := List.head?_eq_some_iff.1 hplus
    refine (hread digits).trans (and_congr_left fun _ => ?_)
    simp [SpellsIndex, not_spellsNumber_plus]
  · have hne (digits : List Char) : cs ≠ '+' :: digits := by
      rintro rfl
      exact hplus rfl
    have hindex : index? cs = some n ↔ SpellsNumber cs n ∧ n < indexLimit := by
      unfold index?
      split
      · next digits => exact absurd rfl (hne digits)
      · exact hread cs
    simpa [SpellsIndex, hne] using hindex

/-! ### Segments -/

/-- Whether a text spells a segment: a slot's name, or an index below the limit. -/
inductive Spells : List Char → Segment → Prop
  | slot (slot : Slot) : Spells slot.text.toList (.slot slot)
  | index {cs : List Char} {n : Nat} (h : SpellsIndex cs n) (hlimit : n < indexLimit) :
    Spells cs (.index n)

/-- Slots aren't named by numbers, with or without a plus. -/
theorem not_spellsIndex_slot (slot : Slot) (n : Nat) : ¬ SpellsIndex slot.text.toList n := by
  have hhead : slot.text.toList.head?.all fun c => !c.isDigit && c != '+' := by
    cases slot <;> decide
  rintro (h | ⟨digits, hdigits, -⟩)
  · obtain ⟨c, cs, hcs⟩ := List.exists_cons_of_ne_nil (spellsNumber_iff.1 h).1
    have hc : c.isDigit = true := h.isDigit c (hcs ▸ List.mem_cons_self)
    simp [hcs, hc] at hhead
  · simp [hdigits] at hhead

/-- A text is read as the segment that it spells. -/
theorem ofText?_eq_some_iff {cs : List Char} {segment : Segment} :
    ofText? (String.ofList cs) = some segment ↔ Spells cs segment := by
  rw [ofText?, String.toList_ofList]
  constructor
  · intro h
    split at h
    · next n hn =>
      obtain rfl := Option.some.inj h
      obtain ⟨hspells, hlimit⟩ := index?_eq_some_iff.1 hn
      exact .index hspells hlimit
    · obtain ⟨slot, hslot, rfl⟩ := Option.map_eq_some_iff.1 h
      rw [← String.toList_ofList (l := cs), Slot.ofText?_eq_some_iff.1 hslot]
      exact .slot slot
  · rintro (slot | ⟨hspells, hlimit⟩)
    · have hnone : index? slot.text.toList = none :=
        Option.eq_none_iff_forall_ne_some.2 fun n hn =>
          not_spellsIndex_slot slot n (index?_eq_some_iff.1 hn).1
      rw [hnone, String.ofList_toList]
      exact congrArg (Option.map Segment.slot) slot.ofText?_text
    · rw [index?_eq_some_iff.2 ⟨hspells, hlimit⟩]

theorem toList_text_index (n : Nat) : (text (.index n)).toList = Nat.toDigits 10 n :=
  Nat.toList_repr

theorem spellsNumber_text (n : Nat) : SpellsNumber (text (.index n)).toList n :=
  ⟨0, toList_text_index n⟩

/-- A segment is spelled by what it is written as, if it isn't an index beyond the limit. -/
theorem spells_text {segment : Segment} (h : ∀ n, segment = .index n → n < indexLimit) :
    Spells segment.text.toList segment := by
  cases segment with
  | slot slot => exact .slot slot
  | index n => exact .index (.inl (spellsNumber_text n)) (h n rfl)

theorem toList_text_ne_nil (segment : Segment) : segment.text.toList ≠ [] := by
  cases segment with
  | slot slot => cases slot <;> decide
  | index n => exact (spellsNumber_iff.1 (spellsNumber_text n)).1

theorem dot_not_mem_text (segment : Segment) : '.' ∉ segment.text.toList := by
  cases segment with
  | slot slot => cases slot <;> decide
  | index n => exact fun h => nomatch (spellsNumber_text n).isDigit '.' h

/-- Segments are told apart by what they are written as. -/
theorem text_injective : Function.Injective text := by
  have hindex (slot : Slot) (n : Nat) : slot.text ≠ text (.index n) := fun h =>
    not_spellsIndex_slot slot n (.inl (h ▸ spellsNumber_text n))
  intro a b h
  match a, b with
  | .slot s, .slot t =>
    have hslot : Slot.ofText? s.text = some t := Slot.ofText?_eq_some_iff.2 h
    rw [s.ofText?_text] at hslot
    rw [Option.some.inj hslot]
  | .slot s, .index n => exact absurd h (hindex s n)
  | .index n, .slot s => exact absurd h.symm (hindex s n)
  | .index n, .index m =>
    rw [← (spellsNumber_text n).decimalNumber_eq, ← (spellsNumber_text m).decimalNumber_eq, h]

end Segment

/-! ### Paths -/

namespace Path

/-- Whether a text spells a path: segments with dots between them, or the empty path. -/
def Spells (text : String) (path : Path) : Prop :=
  if text = "" then path = [] else List.Forall₂ Segment.Spells (text.toList.splitOn '.') path

theorem pieces_eq_splitOn (cs : List Char) : pieces cs = cs.splitOn '.' := by
  induction cs with
  | nil => rfl
  | cons c cs ih =>
    rw [List.splitOn_cons_eq_if_modifyHead, ← ih]
    by_cases hc : c = '.'
    · subst hc
      rfl
    · obtain ⟨piece, rest, hcs⟩ := List.exists_cons_of_ne_nil
        (ih ▸ List.splitOn_ne_nil '.' cs : pieces cs ≠ [])
      rw [pieces.eq_3 c cs hc, hcs]
      simp [hc]

private theorem mapM_eq_ok_iff {ε α β : Type} {f : α → Except ε β} {as : List α} {bs : List β} :
    as.mapM f = .ok bs ↔ List.Forall₂ (fun a b => f a = .ok b) as bs := by
  induction as generalizing bs with
  | nil =>
    rw [List.mapM_nil, List.forall₂_nil_left_iff]
    exact ⟨fun h => (Except.ok.inj h).symm, fun h => congrArg Except.ok h.symm⟩
  | cons a as ih =>
    rw [List.mapM_cons, List.forall₂_cons_left_iff]
    constructor
    · intro h
      cases ha : f a with
      | error e => rw [ha] at h; cases h
      | ok b =>
        cases has : as.mapM f with
        | error e => rw [ha, has] at h; cases h
        | ok rest =>
          rw [ha, has] at h
          exact ⟨b, rest, rfl, ih.1 has, (Except.ok.inj h).symm⟩
    · rintro ⟨b, rest, hb, hrest, rfl⟩
      rw [hb, ih.2 hrest]
      rfl

/-- A text is read as the path that it spells. -/
theorem ofText_eq_ok_iff {text : String} {path : Path} :
    ofText text = .ok path ↔ Spells text path := by
  by_cases hempty : text = ""
  · subst hempty
    exact ⟨fun h => (Except.ok.inj h).symm, fun h => congrArg Except.ok (Eq.symm h)⟩
  · rw [ofText, if_neg (by simpa using hempty), Spells, if_neg hempty, mapM_eq_ok_iff,
      pieces_eq_splitOn]
    refine ⟨fun h => h.imp fun piece segment hsegment => Segment.ofText?_eq_some_iff.1 ?_,
      fun h => h.imp fun piece segment hspells => by rw [Segment.ofText?_eq_some_iff.2 hspells]⟩
    cases hpiece : Segment.ofText? (String.ofList piece) with
    | none => rw [hpiece] at hsegment; cases hsegment
    | some other => rw [hpiece] at hsegment; exact congrArg some (Except.ok.inj hsegment)

/-- A text is read as a path if it is empty or each of its pieces spells a segment. -/
theorem exists_ofText_iff {text : String} : (∃ path, ofText text = .ok path) ↔
    text = "" ∨ ∀ piece ∈ text.toList.splitOn '.', ∃ segment, Segment.Spells piece segment := by
  simp only [ofText_eq_ok_iff, Spells]
  split
  · next h => exact iff_of_true ⟨[], rfl⟩ (.inl h)
  · next h =>
    rw [or_iff_right h]
    generalize text.toList.splitOn '.' = pieces
    induction pieces with
    | nil => simp
    | cons piece pieces ih =>
      rw [List.forall_mem_cons, ← ih]
      simp only [List.forall₂_cons_left_iff]
      constructor
      · rintro ⟨path, segment, rest, hsegment, hrest, -⟩
        exact ⟨⟨segment, hsegment⟩, rest, hrest⟩
      · rintro ⟨⟨segment, hsegment⟩, rest, hrest⟩
        exact ⟨_, segment, rest, hsegment, hrest, rfl⟩

/-! ### Reading again -/

theorem toList_text (path : Path) :
    path.text.toList = ['.'].intercalate (path.map fun segment => segment.text.toList) := by
  rw [text, String.toList_intercalate, List.map_map]
  rfl

theorem text_eq_empty_iff {path : Path} : path.text = "" ↔ path = [] := by
  refine ⟨fun h => ?_, fun h => h ▸ rfl⟩
  cases path with
  | nil => rfl
  | cons segment path =>
    have hnil : (text (segment :: path)).toList = [] := by rw [h]; rfl
    obtain ⟨c, cs, hcs⟩ := List.exists_cons_of_ne_nil segment.toList_text_ne_nil
    rw [toList_text] at hnil
    cases path <;> simp [List.intercalate_cons_cons, hcs] at hnil

/-- The pieces of what a path is written as are what its segments are written as. -/
theorem splitOn_text {path : Path} (h : path ≠ []) :
    path.text.toList.splitOn '.' = path.map fun segment => segment.text.toList := by
  rw [toList_text]
  refine List.splitOn_intercalate '.' (fun piece hpiece => ?_) (by simpa using h)
  obtain ⟨segment, -, rfl⟩ := List.mem_map.1 hpiece
  exact segment.dot_not_mem_text

/-- A path without indices beyond the limit is read again from what it is written as. -/
theorem ofText_text {path : Path} (h : ∀ n, .index n ∈ path → n < Segment.indexLimit) :
    ofText path.text = .ok path := by
  rw [ofText_eq_ok_iff, Spells]
  split
  · next hempty => exact text_eq_empty_iff.1 hempty
  · next hempty =>
    rw [splitOn_text fun hnil => hempty (text_eq_empty_iff.2 hnil), List.forall₂_map_left_iff,
      List.forall₂_same]
    exact fun segment hsegment => Segment.spells_text fun n hn => h n (hn ▸ hsegment)

/-- No index beyond the limit is read. -/
theorem lt_of_mem_ofText {text : String} {path : Path} (h : ofText text = .ok path) {n : Nat}
    (hn : .index n ∈ path) : n < Segment.indexLimit := by
  rw [ofText_eq_ok_iff, Spells] at h
  split at h
  · rw [h] at hn
    cases hn
  · generalize text.toList.splitOn '.' = pieces at h
    induction h with
    | nil => cases hn
    | @cons piece segment pieces path hsegment _ ih =>
      rcases List.mem_cons.1 hn with rfl | hn
      · cases hsegment with
        | index _ hlimit => exact hlimit
      · exact ih hn

/-- Paths are told apart by what they are written as. -/
theorem text_injective : Function.Injective text := by
  intro a b h
  by_cases ha : a = []
  · subst ha
    exact (text_eq_empty_iff.1 (h.symm.trans (text_eq_empty_iff.2 rfl))).symm
  · have hb : b ≠ [] := fun hb => ha (text_eq_empty_iff.1 (h.trans (text_eq_empty_iff.2 hb)))
    have hmap := splitOn_text ha
    rw [h, splitOn_text hb] at hmap
    refine (List.map_injective_iff.2 (fun s t hst => ?_) hmap).symm
    exact Segment.text_injective (String.toList_injective hst)

end Path

end GraphQLTree
