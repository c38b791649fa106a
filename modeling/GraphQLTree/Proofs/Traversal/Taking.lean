import GraphQLTree.Traversal.Taking
import Mathlib.Data.List.Basic

/-!
# Every output is handed out once

Taking by position is taking by the first entry and by all entries under a segment
(`Children.takeAt?_eq`, `Children.takeAllAt?_eq`): the loop never looks behind the entries, and what is in
front of its position is what it has gone past and left. What a call hands out and what it leaves are the
entries that were there (`Children.Call.Hands`), and so are what a sequence of calls hands out and leaves
(`Children.answers?_handed`).
-/

namespace GraphQLTree.Children

variable {α : Type}

theorem isUnder_iff {segment : Segment} {entry : Slot × α} :
    isUnder segment entry = true ↔ segment = .slot entry.1 := by
  simp [isUnder]

/-! ### The first entry -/

/-- Entries have a first one that a test holds of, or none. -/
theorem exists_first (test : Slot × α → Bool) (entries : List (Slot × α)) :
    (∀ entry ∈ entries, test entry = false) ∨
      ∃ earlier entry later, entries = earlier ++ entry :: later ∧
        (∀ entry ∈ earlier, test entry = false) ∧ test entry = true := by
  cases hfind : entries.find? test with
  | none => exact .inl fun entry hmem => by simpa using List.find?_eq_none.1 hfind entry hmem
  | some entry =>
    obtain ⟨htest, earlier, later, rfl, hearlier⟩ := List.find?_eq_some_iff_append.1 hfind
    exact .inr ⟨earlier, entry, later, rfl, by simpa using hearlier, htest⟩

section First

variable {test : Slot × α → Bool} {earlier later : List (Slot × α)} {entry : Slot × α}

theorem takeFirst_of_forall {entries : List (Slot × α)} (h : ∀ entry ∈ entries, test entry = false) :
    takeFirst test entries = (none, entries) := by
  induction entries with
  | nil => rfl
  | cons first entries ih =>
    obtain ⟨hfirst, hentries⟩ := List.forall_mem_cons.1 h
    simp [takeFirst, hfirst, ih hentries]

theorem takeFirst_append (hearlier : ∀ entry ∈ earlier, test entry = false)
    (hentry : test entry = true) :
    takeFirst test (earlier ++ entry :: later) = (some entry.2, earlier ++ later) := by
  induction earlier with
  | nil => simp [takeFirst, hentry]
  | cons first earlier ih =>
    obtain ⟨hfirst, hearlier⟩ := List.forall_mem_cons.1 hearlier
    simp [takeFirst, hfirst, ih hearlier]

theorem findIdx?_append_cons (hearlier : ∀ entry ∈ earlier, test entry = false)
    (hentry : test entry = true) :
    (earlier ++ entry :: later).findIdx? test = some earlier.length := by
  have hnone : earlier.findIdx? test = none := List.findIdx?_eq_none_iff.2 hearlier
  rw [List.findIdx?_append, hnone, List.findIdx?_cons, hentry]
  simp

theorem removeAt?_length (earlier later : List (Slot × α)) (entry : Slot × α) :
    removeAt? earlier.length (earlier ++ entry :: later) = some (entry, earlier ++ later) := by
  rw [removeAt?, List.getElem?_append_right (Nat.le_refl _),
    List.eraseIdx_append_of_length_le (Nat.le_refl _), Nat.sub_self]
  rfl

end First

/-- Taking by position takes the first output under a segment. -/
theorem takeAt?_eq (children : Children α) (segment : Segment) :
    children.takeAt? segment = some (children.take segment) := by
  obtain ⟨entries⟩ := children
  rw [takeAt?, take]
  rcases exists_first (isUnder segment) entries with h | ⟨earlier, entry, later, rfl, hearlier, hentry⟩
  · rw [List.findIdx?_eq_none_iff.2 h, takeFirst_of_forall h]
  · rw [findIdx?_append_cons hearlier hentry, takeFirst_append hearlier hentry]
    simp only [removeAt?_length, Option.map_some]

/-! ### All entries -/

/-- The loop at a position behind entries that it has left takes those of the other entries that are under
the segment. -/
theorem takeAllFrom?_append (segment : Segment) (passed rest : List (Slot × α)) (taken : List α) :
    takeAllFrom? segment (passed ++ rest) passed.length taken =
      some (taken ++ (rest.filter (isUnder segment)).map Prod.snd,
        ⟨passed ++ rest.filter fun entry => !isUnder segment entry⟩) := by
  induction rest generalizing passed taken with
  | nil =>
    rw [takeAllFrom?, if_neg (by simp)]
    simp
  | cons entry rest ih =>
    have hposition : passed.length < (passed ++ entry :: rest).length := by simp
    have hentry : (passed ++ entry :: rest)[passed.length]? = some entry := by simp
    rw [takeAllFrom?, if_pos hposition, hentry, Option.map_some]
    cases hunder : isUnder segment entry with
    | true =>
      have hremoved := removeAt?_length passed rest entry
      simp only
      split
      · next hremove => cases hremoved.symm.trans hremove
      · next removed left hremove =>
        obtain ⟨rfl, rfl⟩ := Prod.mk.inj (Option.some.inj (hremoved.symm.trans hremove))
        -- The entry behind the removed one has come to stand at the position.
        rw [ih]
        simp [hunder]
    | false =>
      have hpassed := ih (passed ++ [entry]) taken
      rw [List.length_append, List.length_singleton, List.append_assoc, List.singleton_append] at hpassed
      simp [hpassed, hunder]

/-- Taking by position takes all outputs under a segment. -/
theorem takeAllAt?_eq (children : Children α) (segment : Segment) :
    children.takeAllAt? segment = some (children.takeAll segment) := by
  have hloop := takeAllFrom?_append segment [] children.entries []
  rw [List.nil_append, List.nil_append, List.nil_append, List.length_nil] at hloop
  rw [takeAllAt?, hloop, takeAll, List.partition_eq_filter_filter]
  rfl

/-! ### Calls -/

/-- Which of some entries a call hands out, and which ones it leaves. -/
inductive Call.Hands : Call → List (Slot × α) → List (Slot × α) → List (Slot × α) → Prop where
  /-- The first of those under the segment. -/
  | first {segment : Segment} {earlier later : List (Slot × α)} {entry : Slot × α} :
    (∀ other ∈ earlier, isUnder segment other = false) → isUnder segment entry = true →
      Hands (.take segment) (earlier ++ entry :: later) [entry] (earlier ++ later)
  /-- There is none under the segment. -/
  | none {segment : Segment} {entries : List (Slot × α)} :
    (∀ entry ∈ entries, isUnder segment entry = false) → Hands (.take segment) entries [] entries
  /-- All of those under the segment, in their order. -/
  | all {segment : Segment} {entries : List (Slot × α)} :
    Hands (.takeAll segment) entries (entries.filter (isUnder segment))
      (entries.filter fun entry => !isUnder segment entry)

namespace Call.Hands

variable {call : Call} {entries taken left : List (Slot × α)} (h : call.Hands entries taken left)
include h

theorem segment_eq : ∀ entry ∈ taken, call.segment = .slot entry.1 := by
  cases h with
  | first _ hentry => exact List.forall_mem_singleton.2 (isUnder_iff.1 hentry)
  | none _ => exact List.forall_mem_nil _
  | all => exact fun entry hmem => isUnder_iff.1 (List.mem_filter.1 hmem).2

theorem perm : (taken ++ left).Perm entries := by
  cases h with
  | first _ _ =>
    rw [List.singleton_append]
    exact List.perm_middle.symm
  | none _ => exact .refl _
  | all => exact List.filter_append_perm _ entries

theorem sublist : left.Sublist entries := by
  cases h with
  | first _ _ => exact (List.sublist_cons_self _ _).append_left _
  | none _ => exact List.Sublist.refl _
  | all => exact List.filter_sublist

end Call.Hands

/-- A call never goes wrong: it hands out what it asks for and leaves the rest. -/
theorem answer?_hands (children : Children α) (call : Call) :
    ∃ taken left, children.answer? call = some (taken.map Prod.snd, ⟨left⟩) ∧
      call.Hands children.entries taken left := by
  obtain ⟨entries⟩ := children
  cases call with
  | take segment =>
    rw [answer?, takeAt?_eq, take]
    rcases exists_first (isUnder segment) entries with h | ⟨earlier, entry, later, rfl, hearlier, hentry⟩
    · exact ⟨[], entries, by rw [takeFirst_of_forall h]; rfl, .none h⟩
    · exact ⟨[entry], earlier ++ later, by rw [takeFirst_append hearlier hentry]; rfl,
        .first hearlier hentry⟩
  | takeAll segment =>
    refine ⟨_, _, ?_, .all⟩
    rw [answer?, takeAllAt?_eq, takeAll, List.partition_eq_filter_filter]
    rfl

/-- Which of some entries each of a sequence of calls hands out, and which ones are left in the end. -/
inductive HandedOut : List Call → List (Slot × α) → List (List (Slot × α)) → List (Slot × α) → Prop where
  | nil (entries : List (Slot × α)) : HandedOut [] entries [] entries
  | cons {call : Call} {calls : List Call} {entries taken middle left : List (Slot × α)}
      {rounds : List (List (Slot × α))} :
    call.Hands entries taken middle → HandedOut calls middle rounds left →
      HandedOut (call :: calls) entries (taken :: rounds) left

namespace HandedOut

variable {calls : List Call} {entries left : List (Slot × α)} {rounds : List (List (Slot × α))}
  (h : HandedOut calls entries rounds left)
include h

theorem segments : List.Forall₂ (fun call round => ∀ entry ∈ round, Call.segment call = .slot entry.1)
    calls rounds := by
  induction h with
  | nil entries => exact .nil
  | cons hcall _ ih => exact .cons hcall.segment_eq ih

theorem perm : (rounds.flatten ++ left).Perm entries := by
  induction h with
  | nil entries => exact .refl _
  | cons hcall _ ih =>
    rw [List.flatten_cons, List.append_assoc]
    exact (ih.append_left _).trans hcall.perm

theorem sublist : left.Sublist entries := by
  induction h with
  | nil entries => exact List.Sublist.refl _
  | cons hcall _ ih => exact ih.trans hcall.sublist

end HandedOut

/-- Any sequence of calls hands out every output once. Each call takes the first output under its segment
that is left, or all of them in their order, and no other; those that all calls hand out and those that
are left are the outputs there were, and those that are left have kept their order. -/
theorem answers?_handed (children : Children α) (calls : List Call) :
    (∀ segment, children.takeAt? segment = some (children.take segment) ∧
      children.takeAllAt? segment = some (children.takeAll segment)) ∧
    ∃ rounds left, children.answers? calls = some (rounds.map (List.map Prod.snd), ⟨left⟩) ∧
      HandedOut calls children.entries rounds left ∧
      List.Forall₂ (fun call round => ∀ entry ∈ round, Call.segment call = .slot entry.1) calls rounds ∧
      (rounds.flatten ++ left).Perm children.entries ∧ left.Sublist children.entries := by
  obtain ⟨rounds, left, hanswers, hhanded⟩ : ∃ rounds left,
      children.answers? calls = some (rounds.map (List.map Prod.snd), ⟨left⟩) ∧
        HandedOut calls children.entries rounds left := by
    induction calls generalizing children with
    | nil => exact ⟨[], children.entries, rfl, .nil _⟩
    | cons call calls ih =>
      obtain ⟨taken, middle, hanswer, hhands⟩ := children.answer?_hands call
      obtain ⟨rounds, left, hanswers, hhanded⟩ := ih ⟨middle⟩
      refine ⟨taken :: rounds, left, ?_, .cons hhands hhanded⟩
      simp [answers?, hanswer, hanswers]
  exact ⟨fun segment => ⟨children.takeAt?_eq segment, children.takeAllAt?_eq segment⟩,
    rounds, left, hanswers, hhanded, hhanded.segments, hhanded.perm, hhanded.sublist⟩

end GraphQLTree.Children
