import Mathlib.Data.List.Perm.Basic

/-!
# Interleaved lists

A list is **interleaved** from some lists if they can be used up by taking its elements one after the
other from the front of any of them. So it has the elements of all of the lists and no others
(`Interleaved.perm`), and those of each list in their order (`Interleaved.sublist`).
-/

namespace GraphQLTree

variable {α β : Type}

/-- Whether a list is interleaved from some lists. -/
inductive Interleaved : List (List α) → List α → Prop
  | nil {lists : List (List α)} (h : ∀ list ∈ lists, list = []) : Interleaved lists []
  | cons {before after : List (List α)} {a : α} {list whole : List α}
    (h : Interleaved (before ++ list :: after) whole) :
    Interleaved (before ++ (a :: list) :: after) (a :: whole)

namespace Interleaved

/-- An interleaved list has the elements of all of the lists. -/
theorem perm {lists : List (List α)} {whole : List α} (h : Interleaved lists whole) :
    lists.flatten.Perm whole := by
  induction h with
  | nil h => rw [List.flatten_eq_nil_iff.2 h]
  | @cons before after a list whole h ih =>
    rw [List.flatten_append, List.flatten_cons] at ih ⊢
    exact List.perm_middle.trans (ih.cons a)

/-- An interleaved list has the elements of each list in their order. -/
theorem sublist {lists : List (List α)} {whole : List α} (h : Interleaved lists whole) :
    ∀ list ∈ lists, list.Sublist whole := by
  induction h with
  | nil h => exact fun list hmem => by rw [h list hmem]
  | @cons before after a list whole h ih =>
    intro list' hmem
    rcases List.mem_append.1 hmem with hmem | hmem
    · exact (ih list' (List.mem_append_left _ hmem)).cons a
    · rcases List.mem_cons.1 hmem with rfl | hmem
      · exact (ih list (by simp)).cons_cons a
      · exact (ih list' (by simp [hmem])).cons a

theorem map (f : α → β) {lists : List (List α)} {whole : List α} (h : Interleaved lists whole) :
    Interleaved (lists.map (List.map f)) (whole.map f) := by
  induction h with
  | nil h =>
    refine .nil fun list hmem => ?_
    obtain ⟨list', hmem', rfl⟩ := List.mem_map.1 hmem
    rw [h list' hmem', List.map_nil]
  | cons h ih =>
    rw [List.map_append, List.map_cons, List.map_cons]
    rw [List.map_append, List.map_cons] at ih
    exact .cons ih

/-- The order of the lists doesn't matter. -/
theorem of_perm {lists lists' : List (List α)} {whole : List α} (hperm : lists.Perm lists')
    (h : Interleaved lists whole) : Interleaved lists' whole := by
  induction h generalizing lists' with
  | nil h => exact .nil fun list hmem => h list (hperm.mem_iff.2 hmem)
  | @cons before after a list whole h ih =>
    obtain ⟨before', after', rfl⟩ := List.append_of_mem (hperm.subset (a := a :: list) (by simp))
    have hrest : (before ++ after).Perm (before' ++ after') :=
      (List.perm_cons (a :: list)).1
        ((List.perm_middle.symm.trans hperm).trans List.perm_middle)
    exact .cons (ih (List.perm_middle.trans ((hrest.cons list).trans List.perm_middle.symm)))

/-- Lists that are used up one after the other. -/
theorem append {lists lists' : List (List α)} {whole whole' : List α} (h : Interleaved lists whole)
    (h' : Interleaved lists' whole') : Interleaved (lists ++ lists') (whole ++ whole') := by
  induction h with
  | @nil lists h =>
    induction h' with
    | nil h' => exact .nil (List.forall_mem_append.2 ⟨h, h'⟩)
    | cons h' ih =>
      rw [← List.append_assoc] at ih ⊢
      exact .cons ih
  | cons h ih =>
    rw [List.append_assoc, List.cons_append] at ih ⊢
    exact .cons ih

theorem singleton (list : List α) : Interleaved [list] list := by
  induction list with
  | nil => exact .nil fun list hmem => List.mem_singleton.1 hmem
  | cons a list ih => exact @cons _ [] [] a list list ih

/-- A list starts with some elements if the one that it is interleaved from does. -/
theorem prepend {before after : List (List α)} {list whole : List α} (front : List α)
    (h : Interleaved (before ++ list :: after) whole) :
    Interleaved (before ++ (front ++ list) :: after) (front ++ whole) := by
  induction front with
  | nil => exact h
  | cons a front ih => exact .cons ih

/-- The elements of a list around others. -/
theorem around {lists : List (List α)} {whole : List α} (front back : List α)
    (h : Interleaved lists whole) :
    Interleaved ((front ++ back) :: lists) (front ++ whole ++ back) := by
  have hback := (h.append (singleton back)).of_perm (List.perm_append_singleton back lists)
  rw [List.append_assoc]
  exact @prepend _ [] lists back _ front hback

end Interleaved

end GraphQLTree
