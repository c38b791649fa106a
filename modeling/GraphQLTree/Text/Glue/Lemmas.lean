import GraphQLTree.Text.Glue

/-!
# Laws of gluing

How trimming, dropping and gluing act on texts put end to end. Main statement: gluing is
associative and has the empty text as its unit, so printed parts may be grouped in any way.
-/

namespace GraphQLTree.Text

/-! ### Trimming -/

@[simp] theorem trimSpaces_nil : trimSpaces [] = [] := rfl

theorem dropSpaces_space_cons (cs : List Char) : dropSpaces (' ' :: cs) = dropSpaces cs := rfl

theorem dropSpaces_cons_of_ne {c : Char} (h : c ≠ ' ') (cs : List Char) :
    dropSpaces (c :: cs) = c :: cs :=
  List.dropWhile_cons_of_neg (by simpa using h)

theorem dropSpaces_append (a b : List Char) :
    dropSpaces (a ++ b) = if dropSpaces a = [] then dropSpaces b else dropSpaces a ++ b := by
  unfold dropSpaces
  rw [List.dropWhile_append]
  cases a.dropWhile (· == ' ') <;> rfl

theorem trimSpaces_append (a b : List Char) :
    trimSpaces (a ++ b) = if trimSpaces b = [] then trimSpaces a else a ++ trimSpaces b := by
  unfold trimSpaces
  rw [List.reverse_append, dropSpaces_append]
  cases dropSpaces b.reverse <;> simp

theorem trimSpaces_cons (c : Char) (cs : List Char) :
    trimSpaces (c :: cs) = if trimSpaces cs = [] ∧ c = ' ' then [] else c :: trimSpaces cs := by
  rw [← List.singleton_append, trimSpaces_append]
  by_cases hcs : trimSpaces cs = []
  · by_cases hc : c = ' '
    · subst hc
      rw [if_pos hcs, if_pos ⟨hcs, rfl⟩]
      rfl
    · rw [if_pos hcs, if_neg (by simp [hc]), hcs, trimSpaces, List.reverse_singleton,
        dropSpaces_cons_of_ne hc]
      rfl
  · rw [if_neg hcs, if_neg (by simp [hcs])]
    rfl

/-- A text that ends its line has no spaces to trim. -/
theorem trimSpaces_of_endsLine {a : List Char} (h : endsLine a = true) : trimSpaces a = a := by
  obtain ⟨b, rfl⟩ : ∃ b, a = b ++ ['\n'] := by
    simpa [endsLine, List.getLast?_eq_some_iff] using h
  rw [trimSpaces_append]
  rfl

theorem dropSpaces_trimSpaces (a : List Char) :
    dropSpaces (trimSpaces a) = trimSpaces (dropSpaces a) := by
  induction a with
  | nil => rfl
  | cons c cs ih =>
    by_cases hc : c = ' '
    · subst hc
      rw [dropSpaces_space_cons, ← ih, trimSpaces_cons]
      split
      · next h => rw [h.1]
      · rfl
    · rw [dropSpaces_cons_of_ne hc, trimSpaces_cons, if_neg (by simp [hc]),
        dropSpaces_cons_of_ne hc]

/-! ### Associativity -/

@[simp] theorem glue_nil (out : List Char) : glue out [] = out := by
  unfold glue; split <;> simp [afterBreak, dropSpaces, dropLineFeed]

@[simp] theorem nil_glue (text : List Char) : glue [] text = text := by
  simp [glue, endsLine]

theorem endsLine_append {a b : List Char} (h : b ≠ []) : endsLine (a ++ b) = endsLine b := by
  simp [endsLine, List.getLast?_append, List.getLast?_eq_some_getLast h]

theorem dropLineFeed_cons_of_ne {c : Char} (h : c ≠ '\n') (cs : List Char) :
    dropLineFeed (c :: cs) = c :: cs := by
  unfold dropLineFeed
  split
  · next e => injection e with e; exact absurd e h
  · rfl

theorem dropLineFeed_append {a : List Char} (h : a ≠ []) (b : List Char) :
    dropLineFeed (a ++ b) = dropLineFeed a ++ b := by
  cases a with
  | nil => exact absurd rfl h
  | cons c cs =>
    by_cases hc : c = '\n'
    · subst hc; rfl
    · rw [List.cons_append, dropLineFeed_cons_of_ne hc, dropLineFeed_cons_of_ne hc,
        List.cons_append]

theorem afterBreak_append (a b : List Char) :
    afterBreak (a ++ b) = if dropSpaces a = [] then afterBreak b else afterBreak a ++ b := by
  unfold afterBreak
  rw [dropSpaces_append]
  split
  · rfl
  · next h => exact dropLineFeed_append h b

theorem glue_of_endsLine {a : List Char} (h : endsLine a = true) (b : List Char) :
    glue a b = a ++ afterBreak b := by
  rw [glue, if_pos h]

theorem glue_lineFeed {a : List Char} (h : endsLine a = false) (b : List Char) :
    glue a ('\n' :: b) = trimSpaces a ++ '\n' :: b := by
  simp [glue, h]

theorem glue_of_head?_ne {a b : List Char} (h : endsLine a = false) (hb : b.head? ≠ some '\n') :
    glue a b = a ++ b := by
  simp [glue, h, hb]

/-- A line break behind a text ends its line. -/
theorem endsLine_glue_lineFeed (out : List Char) : endsLine (glue out ['\n']) = true := by
  cases hout : endsLine out with
  | true =>
    have hafter : afterBreak ['\n'] = [] := rfl
    rwa [glue_of_endsLine hout, hafter, List.append_nil]
  | false =>
    rw [glue_lineFeed hout, endsLine_append (by simp)]
    rfl

theorem afterBreak_suffix (b : List Char) : afterBreak b <:+ b := by
  refine List.IsSuffix.trans ?_ (List.dropWhile_suffix (· == ' '))
  unfold afterBreak dropLineFeed
  split
  · next h => exact ⟨['\n'], h.symm⟩
  · exact List.suffix_refl _

theorem endsLine_afterBreak {b : List Char} (h : afterBreak b ≠ []) :
    endsLine (afterBreak b) = endsLine b := by
  obtain ⟨p, hp⟩ := afterBreak_suffix b
  exact (endsLine_append h).symm.trans (by rw [hp])

/-- Trimming the end of a text commutes with merging its start into a line break. -/
theorem afterBreak_trimSpaces (b : List Char) :
    afterBreak (trimSpaces b) = trimSpaces (afterBreak b) := by
  unfold afterBreak
  rw [dropSpaces_trimSpaces]
  generalize dropSpaces b = d
  cases d with
  | nil => rfl
  | cons x xs =>
    by_cases hx : x = '\n'
    · subst hx
      rw [trimSpaces_cons, if_neg (by simp)]
      rfl
    · rw [dropLineFeed_cons_of_ne hx, trimSpaces_cons]
      split
      · rfl
      · rw [dropLineFeed_cons_of_ne hx]

theorem trimSpaces_head? {b : List Char} (h : trimSpaces b ≠ []) :
    (trimSpaces b).head? = b.head? := by
  cases b with
  | nil => exact absurd rfl h
  | cons x xs =>
    rw [trimSpaces_cons] at h ⊢
    split
    · next hx => rw [if_pos hx] at h; exact absurd rfl h
    · rfl

theorem dropSpaces_eq_nil_iff {b : List Char} : dropSpaces b = [] ↔ ∀ c ∈ b, c = ' ' := by
  induction b with
  | nil => simp [dropSpaces]
  | cons c cs ih =>
    by_cases hc : c = ' '
    · rw [hc, dropSpaces_space_cons, ih, List.forall_mem_cons]
      simp
    · simp [dropSpaces_cons_of_ne hc, hc]

theorem trimSpaces_eq_nil_iff {b : List Char} : trimSpaces b = [] ↔ ∀ c ∈ b, c = ' ' := by
  simp [trimSpaces, dropSpaces_eq_nil_iff]

theorem endsLine_eq_false_of_dropSpaces {b : List Char} (h : dropSpaces b = []) :
    endsLine b = false := by
  rw [dropSpaces_eq_nil_iff] at h
  rw [Bool.eq_false_iff]
  intro hb
  have hm : '\n' ∈ b := List.mem_of_getLast? (by simpa [endsLine] using hb)
  exact absurd (h _ hm) (by decide)

theorem dropSpaces_trimSpaces_ne_nil {b : List Char} (h : dropSpaces b ≠ []) :
    dropSpaces (trimSpaces b) ≠ [] := by
  rw [dropSpaces_trimSpaces]
  intro e
  rw [trimSpaces_eq_nil_iff, ← dropSpaces_eq_nil_iff] at e
  have hi : dropSpaces (dropSpaces b) = dropSpaces b := by
    generalize hd : dropSpaces b = d
    cases d with
    | nil => rfl
    | cons x xs =>
      have hx := List.head?_dropWhile_not (fun c : Char => c == ' ') b
      rw [show b.dropWhile (fun c : Char => c == ' ') = x :: xs from hd] at hx
      exact dropSpaces_cons_of_ne (by simpa using hx) xs
  exact h (hi ▸ e)

/-- Where a text leaves nothing behind a break, gluing onto it doesn't change that. -/
theorem afterBreak_glue_of_eq_nil {b : List Char} (h : afterBreak b = []) (c : List Char) :
    afterBreak (glue b c) = afterBreak c := by
  by_cases hd : dropSpaces b = []
  · have he := endsLine_eq_false_of_dropSpaces hd
    by_cases hc : c.head? = some '\n'
    · obtain ⟨t, rfl⟩ := List.head?_eq_some_iff.1 hc
      rw [glue_lineFeed he, trimSpaces_eq_nil_iff.2 (dropSpaces_eq_nil_iff.1 hd), List.nil_append]
    · rw [glue_of_head?_ne he hc, afterBreak_append, if_pos hd]
  · have he : endsLine b = true := by
      obtain ⟨p, hp⟩ : dropSpaces b <:+ b := List.dropWhile_suffix _
      rw [← hp, endsLine_append hd]
      unfold afterBreak dropLineFeed at h
      split at h
      · next e => rw [e, h]; rfl
      · exact absurd h hd
    rw [glue_of_endsLine he, afterBreak_append, if_neg hd, h, List.nil_append]

/-- Gluing is associative. -/
theorem glue_assoc (a b c : List Char) : glue (glue a b) c = glue a (glue b c) := by
  cases ha : endsLine a with
  | true =>
    rw [glue_of_endsLine ha, glue_of_endsLine ha]
    by_cases hb : afterBreak b = []
    · rw [hb, List.append_nil, glue_of_endsLine ha, afterBreak_glue_of_eq_nil hb]
    · have hd : dropSpaces b ≠ [] := fun e => hb (by rw [afterBreak, e]; rfl)
      have he : endsLine (a ++ afterBreak b) = endsLine b := by
        rw [endsLine_append hb, endsLine_afterBreak hb]
      cases hbe : endsLine b with
      | true =>
        rw [glue_of_endsLine (he.trans hbe), glue_of_endsLine hbe, afterBreak_append, if_neg hd,
          List.append_assoc]
      | false =>
        by_cases hc : c.head? = some '\n'
        · obtain ⟨t, rfl⟩ := List.head?_eq_some_iff.1 hc
          rw [glue_lineFeed (he.trans hbe), glue_lineFeed hbe, afterBreak_append,
            trimSpaces_append, if_neg (dropSpaces_trimSpaces_ne_nil hd), afterBreak_trimSpaces,
            trimSpaces_of_endsLine ha]
          split
          · next e => rw [e, List.nil_append]
          · rw [List.append_assoc]
        · rw [glue_of_head?_ne (he.trans hbe) hc, glue_of_head?_ne hbe hc, afterBreak_append,
            if_neg hd, List.append_assoc]
  | false =>
    by_cases hn : b = []
    · rw [hn, glue_nil, nil_glue]
    have he (p : List Char) : endsLine (p ++ b) = endsLine b := endsLine_append hn
    by_cases hb : b.head? = some '\n'
    · obtain ⟨t, rfl⟩ := List.head?_eq_some_iff.1 hb
      rw [glue_lineFeed ha]
      cases hbe : endsLine ('\n' :: t) with
      | true =>
        rw [glue_of_endsLine ((he _).trans hbe), glue_of_endsLine hbe, List.cons_append,
          glue_lineFeed ha, List.append_assoc, List.cons_append]
      | false =>
        by_cases hc : c.head? = some '\n'
        · obtain ⟨u, rfl⟩ := List.head?_eq_some_iff.1 hc
          have ht : trimSpaces ('\n' :: t) = '\n' :: trimSpaces t := by
            rw [trimSpaces_cons, if_neg (by simp)]
          rw [glue_lineFeed ((he _).trans hbe), glue_lineFeed hbe, trimSpaces_append, ht,
            if_neg (by simp), List.cons_append, glue_lineFeed ha, List.append_assoc,
            List.cons_append]
        · rw [glue_of_head?_ne ((he _).trans hbe) hc, glue_of_head?_ne hbe hc, List.cons_append,
            glue_lineFeed ha, List.append_assoc, List.cons_append]
    · rw [glue_of_head?_ne ha hb]
      have hg (p : List Char) (hp : p ≠ []) (hh : p.head? = b.head?) (u : List Char) :
          glue a (p ++ u) = a ++ (p ++ u) := by
        refine glue_of_head?_ne ha ?_
        cases p with
        | nil => exact absurd rfl hp
        | cons => exact fun e => hb (hh ▸ e)
      cases hbe : endsLine b with
      | true =>
        rw [glue_of_endsLine ((he _).trans hbe), glue_of_endsLine hbe, hg b hn rfl,
          List.append_assoc]
      | false =>
        by_cases hc : c.head? = some '\n'
        · obtain ⟨u, rfl⟩ := List.head?_eq_some_iff.1 hc
          rw [glue_lineFeed ((he _).trans hbe), glue_lineFeed hbe, trimSpaces_append]
          split
          · next e => rw [e, List.nil_append, glue_lineFeed ha]
          · next e => rw [hg _ e (trimSpaces_head? e), List.append_assoc]
        · rw [glue_of_head?_ne ((he _).trans hbe) hc, glue_of_head?_ne hbe hc, hg b hn rfl,
            List.append_assoc]

end GraphQLTree.Text
