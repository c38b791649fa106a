import GraphQLTree.Proofs.Grammar.Documents
import GraphQLTree.Proofs.Layout.Clean

/-!
# Line breaks of printed documents

Nothing in a definition breaks two lines at once (`Derives.breaks_le`), so the line breaks of a document
with one definition are clean. The text of a document is that of its first definition and that of the
others behind it, so its line breaks are clean too, with two of them in a row between definitions of
pretty text (`cleanBreaks_document`).
-/

namespace GraphQLTree

/-! ### Definitions -/

/-- Comments around pieces break no line by themselves. -/
theorem breaks_le_around (pretty : Bool) (comments : List Comment) {body : List Piece} (own : Bool)
    (h : ∀ piece ∈ body, piece.breaks pretty ≤ 1) :
    ∀ piece ∈ around comments body own, piece.breaks pretty ≤ 1 := by
  have hleading (comments : List Comment) :
      ∀ piece ∈ leadingPieces comments, piece.breaks pretty ≤ 1 := by
    intro piece hpiece
    obtain ⟨comment, -, rfl⟩ := List.mem_map.1 hpiece
    exact Nat.zero_le 1
  rcases around_cases comments body own with ⟨-, he⟩ | ⟨before, text, -, -, he⟩
  · rw [he]
    exact List.forall_mem_append.2 ⟨hleading comments, h⟩
  · rw [he]
    exact List.forall_mem_append.2
      ⟨List.forall_mem_append.2 ⟨hleading before, h⟩, List.forall_mem_singleton.2 (Nat.zero_le 1)⟩

/-- An element breaks no more than one line at once if it is a space that a rule spells or a child that
doesn't. -/
theorem Element.breaks_le (pretty : Bool) {element : Element} {part : Part}
    (hmakes : part.Makes element.shape)
    (hchild : ∀ slot goal c, element = .child slot goal c →
      ∀ piece ∈ c.pieces, piece.breaks pretty ≤ 1) :
    ∀ piece ∈ element.pieces, piece.breaks pretty ≤ 1 := by
  cases element with
  | space piece =>
    have hspaces : ∀ piece ∈ [Piece.soft, .hard, .comma], piece.breaks pretty ≤ 1 := by
      simp [Piece.breaks]
    exact List.forall_mem_singleton.2 (hspaces piece hmakes)
  | own slot word spare gift =>
    have htoken : ∀ piece ∈ [Piece.token word.token], piece.breaks pretty ≤ 1 :=
      List.forall_mem_singleton.2 (Nat.zero_le 1)
    cases spare with
    | true => simp
    | false =>
      have haround := breaks_le_around pretty word.comments true htoken
      cases slot <;> first | exact htoken | exact haround
  | child slot goal c => exact hchild slot goal c rfl

/-- Nothing in a node breaks two lines at once. -/
theorem Derives.breaks_le {goal : Goal} {marks : List Mark} {pieces : List Piece} {node : Node}
    (h : Derives goal marks pieces node) (pretty : Bool) :
    ∀ piece ∈ pieces, piece.breaks pretty ≤ 1 := by
  induction h with
  | @production goal p description elements hgoal hreadable hdescribed hspells hdemand hquery
      hdescription hchildren ihdescription ihchildren =>
    refine List.forall_mem_append.2 ⟨?_, breaks_le_around pretty _ _ ?_⟩
    · cases description with
      | none => simp [descriptionElements]
      | some c =>
        have hlines : (Piece.lines 0 1).breaks pretty ≤ 1 := by cases pretty <;> decide
        simpa [descriptionElements, or_imp, forall_and] using ⟨ihdescription c rfl, hlines⟩
    · intro piece hpiece
      obtain ⟨element, helement, hpiece⟩ := List.mem_flatMap.1 hpiece
      obtain ⟨part, -, hmakes⟩ := hspells.makes _ (List.mem_map_of_mem helement)
      refine element.breaks_le pretty hmakes ?_ piece hpiece
      rintro slot subgoal c rfl
      exact ihchildren slot subgoal c helement
  | query comments hgoal hshorthand hchild ih =>
    exact breaks_le_around pretty comments false ih
  | nonNull comments h hkind ih =>
    exact List.forall_mem_append.2
      ⟨ih, breaks_le_around pretty comments true (List.forall_mem_singleton.2 (Nat.zero_le 1))⟩

/-! ### Documents -/

variable {style : Style} {children : List Child} {comments : List Comment}

/-- The text of a document with some definitions and comments. -/
def documentText (style : Style) (children : List Child) (comments : List Comment) : List Char :=
  Piece.trimmed style.pretty (Piece.styled style (documentPieces children comments))

/-- Whether a definition that was derived can be written on lines of its own in a style. -/
structure Child.IsBlock (style : Style) (c : Child) : Prop where
  derives : Derives .definition c.marks c.pieces c.node
  anchored : Piece.Anchored c.pieces
  sound : Piece.Sound (Piece.styled style c.pieces)

/-- The pieces of a document make a block. -/
theorem isBlock_document (hne : children ≠ []) (h : ∀ c ∈ children, c.IsBlock style)
    (hcomments : SoundComments comments) :
    Piece.IsBlock (Piece.styled style (documentPieces children comments)) where
  anchored := by
    obtain ⟨c, children, rfl⟩ := List.exists_cons_of_ne_nil hne
    exact (((h c List.mem_cons_self).anchored.append _).append _).styled style
  sound := by
    have hleading : Piece.Sound (Piece.styled style (leadingPieces comments)) := by
      refine Piece.Sound.styled style fun piece hpiece => ?_
      obtain ⟨comment, hcomment, rfl⟩ := List.mem_map.1 hpiece
      exact hcomments comment hcomment
    intro piece hpiece
    obtain ⟨piece', hmem, he⟩ := List.mem_filterMap.1 hpiece
    rcases mem_documentPieces hmem with ⟨c, hc, hmem⟩ | ⟨m, n, rfl⟩ | hmem
    · exact (h c hc).sound piece (List.mem_filterMap.2 ⟨piece', hmem, he⟩)
    · obtain rfl := Option.some.inj he
      trivial
    · exact hleading piece (List.mem_filterMap.2 ⟨piece', hmem, he⟩)
  spaced := Piece.spaced_document (fun c hc => (h c hc).derives) style comments

theorem documentPieces_append {a b : List Child} (ha : a ≠ []) (hb : b ≠ [])
    (comments : List Comment) :
    documentPieces (a ++ b) comments = definitionPieces a ++ .lines 1 2 :: documentPieces b comments := by
  obtain ⟨c, a, rfl⟩ := List.exists_cons_of_ne_nil ha
  obtain ⟨d, b, rfl⟩ := List.exists_cons_of_ne_nil hb
  simp [documentPieces, definitionPieces]

/-- The text of a document is that of its first definitions and that of the others behind it, and so it
is outside strings and comments. -/
theorem documentText_append {a b : List Child} (ha : a ≠ []) (hb : b ≠ [])
    (h : ∀ c ∈ a ++ b, c.IsBlock style) (hcomments : SoundComments comments) :
    documentText style (a ++ b) comments =
        documentText style a [] ++ (Piece.extraBreak style.pretty ++ documentText style b comments) ∧
      Text.outside (documentText style (a ++ b) comments) =
        Text.outside (documentText style a []) ++ ((Piece.extraBreak style.pretty).map some ++
          Text.outside (documentText style b comments)) := by
  obtain ⟨ha', hb'⟩ := List.forall_mem_append.1 h
  have hpieces : Piece.styled style (documentPieces (a ++ b) comments) =
      Piece.styled style (definitionPieces a) ++
        .lines 1 2 :: Piece.styled style (documentPieces b comments) := by
    rw [documentPieces_append ha hb, Piece.styled_append]
    rfl
  have hfirst : Piece.styled style (documentPieces a []) =
      Piece.styled style (definitionPieces a) ++ [.lines 1 1] := Piece.styled_append ..
  have hboth := isBlock_document (by simp [ha]) h hcomments
  have hsilent : SoundComments [] := by simp [SoundComments]
  have hblock := isBlock_document ha ha' hsilent
  rw [hpieces] at hboth
  rw [hfirst] at hblock
  rw [documentText, documentText, hpieces, hfirst]
  exact hblock.trimmed_lines style.pretty (isBlock_document hb hb' hcomments) hboth

/-- Whether two texts are those of the first definitions of a pretty document and of the others. -/
def BetweenDefinitions (style : Style) (children : List Child) (comments : List Comment)
    (before after : List Char) : Prop :=
  style.pretty = true ∧ ∃ a b, children = a ++ b ∧ a ≠ [] ∧ b ≠ [] ∧
    before = documentText style a [] ∧ after = documentText style b comments

/-- The line breaks of a document with one definition are clean. -/
theorem cleanBreaks_definition {c : Child} (h : c.IsBlock style) (hcomments : SoundComments comments) :
    Text.CleanBreaks (documentText style [c] comments) (fun _ _ => False) ∧
      (Text.outside (documentText style [c] comments)).getLast? = some (some '\n') := by
  have hpieces : Piece.styled style (documentPieces [c] comments) =
      Piece.styled style c.pieces ++ .lines 1 1 :: Piece.styled style (leadingPieces comments) := by
    rw [documentPieces, definitionPieces, List.flatMap_nil, List.append_nil, Piece.styled_append]
    rfl
  have hleading : ∀ piece ∈ Piece.styled style (leadingPieces comments),
      ∃ text, piece = .leading text := by
    intro piece hpiece
    obtain ⟨piece', hmem, he⟩ := List.mem_filterMap.1 hpiece
    obtain ⟨comment, -, rfl⟩ := List.mem_map.1 hmem
    obtain ⟨-, rfl⟩ := by simpa [Piece.styled?] using he
    exact ⟨_, rfl⟩
  have hblock := isBlock_document (List.cons_ne_nil c []) (List.forall_mem_singleton.2 h) hcomments
  rw [hpieces] at hblock
  rw [documentText, hpieces]
  exact Piece.IsBlock.clean style.pretty hleading
    (Piece.breaks_le_styled style (h.derives.breaks_le style.pretty)) hblock

/-- The line breaks of a document are clean, and two of them stand in a row between definitions of pretty
text only. -/
theorem cleanBreaks_document (hne : children ≠ []) (h : ∀ c ∈ children, c.IsBlock style)
    (hcomments : SoundComments comments) :
    Text.CleanBreaks (documentText style children comments) (BetweenDefinitions style children comments) := by
  induction children with
  | nil => exact absurd rfl hne
  | cons c children ih =>
    obtain ⟨hc, hchildren⟩ := List.forall_mem_cons.1 h
    cases children with
    | nil => exact (cleanBreaks_definition hc hcomments).1.mono fun _ _ h => h.elim
    | cons d children =>
      have hrest : d :: children ≠ [] := List.cons_ne_nil _ _
      have hnone : SoundComments [] := by simp [SoundComments]
      obtain ⟨hclean, hends⟩ := cleanBreaks_definition hc hnone
      obtain ⟨htext, houtside⟩ := documentText_append (List.cons_ne_nil c []) hrest h hcomments
      have hextra : Piece.extraBreak style.pretty = [] ∨ Piece.extraBreak style.pretty = ['\n'] := by
        cases style.pretty <;> simp [Piece.extraBreak]
      have hsolid := (isBlock_document hrest hchildren hcomments).solid_head style.pretty
      rw [htext] at houtside
      rw [← List.singleton_append, htext]
      refine (hclean.join (ih hrest hchildren) hextra houtside hends hsolid).mono
        fun before after hbetween => ?_
      rcases hbetween with ⟨hbreak, rfl, rfl⟩ | ⟨before', rfl, hpretty, a, b, hab, ha, hb, rfl, rfl⟩
      · have hpretty : style.pretty = true := by
          cases hp : style.pretty with
          | true => rfl
          | false => simp [Piece.extraBreak, hp] at hbreak
        exact ⟨hpretty, [c], d :: children, rfl, List.cons_ne_nil c [], hrest, rfl, rfl⟩
      · have hsub : ∀ e ∈ [c] ++ a, e.IsBlock style :=
          List.forall_mem_cons.2 ⟨hc, fun e he => hchildren e (hab ▸ List.mem_append_left _ he)⟩
        refine ⟨hpretty, c :: a, b, by rw [hab]; rfl, List.cons_ne_nil c a, hb, ?_, rfl⟩
        exact (documentText_append (List.cons_ne_nil c []) ha hsub hnone).1.symm

end GraphQLTree
