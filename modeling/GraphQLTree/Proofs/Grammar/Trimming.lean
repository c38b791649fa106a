import GraphQLTree.Proofs.Grammar.Rereading
import GraphQLTree.Proofs.Grammar.Starts

/-!
# Trimming tokens

Tokens are **trimmed** when some of them go that a text can do without (`Token.Trims`): a delimiter
before the first item of a list, and the keyword of a query that is nothing but a selection set. The
tokens of a derivation that are written are trimmed from all of its tokens (`Derives.trims`).
-/

namespace GraphQLTree

/-- Tokens, and what is left when some of them go: an ampersand directly behind `implements`, a pipe
directly behind an equals sign or behind `on`, and `query` directly before a brace. -/
inductive Token.Trims : List Token → List Token → Prop
  | nil : Trims [] []
  | keep (token : Token) {a b : List Token} (h : Trims a b) : Trims (token :: a) (token :: b)
  | ampersand {a b : List Token} (h : Trims a b) :
    Trims (.name Keyword.implements.text :: .punct .ampersand :: a)
      (.name Keyword.implements.text :: b)
  | pipeOfUnion {a b : List Token} (h : Trims a b) :
    Trims (.punct .equals :: .punct .pipe :: a) (.punct .equals :: b)
  | pipeOfLocations {a b : List Token} (h : Trims a b) :
    Trims (.name Keyword.onType.text :: .punct .pipe :: a) (.name Keyword.onType.text :: b)
  | query {a b : List Token} (h : Trims a b) :
    Trims (.name Keyword.query.text :: .punct .braceOpen :: a) (.punct .braceOpen :: b)

namespace Token.Trims

theorem refl (tokens : List Token) : Trims tokens tokens := by
  induction tokens with
  | nil => exact .nil
  | cons token tokens ih => exact .keep token ih

theorem append {a b c d : List Token} (h : Trims a b) (h' : Trims c d) :
    Trims (a ++ c) (b ++ d) := by
  induction h with
  | nil => exact h'
  | keep token h ih => exact .keep token ih
  | ampersand h ih => exact .ampersand ih
  | pipeOfUnion h ih => exact .pipeOfUnion ih
  | pipeOfLocations h ih => exact .pipeOfLocations ih
  | query h ih => exact .query ih

end Token.Trims

/-- Whether the tokens of words that are written are trimmed from all of them. -/
def Mark.Trims (marks : List Mark) : Prop :=
  Token.Trims (marks.map fun mark => mark.word.token) (writtenTokens marks)

theorem Mark.Trims.append {a b : List Mark} (ha : Trims a) (hb : Trims b) : Trims (a ++ b) := by
  rw [Trims, List.map_append, writtenTokens_append]
  exact Token.Trims.append ha hb

theorem Mark.trims_of_kept {marks : List Mark} (h : ∀ mark ∈ marks, mark.spare = false) :
    Trims marks := by
  rw [Trims, writtenTokens_eq h]
  exact .refl _

/-! ### Spare delimiters -/

/-- Whether a part may have a delimiter before the first of its children. -/
def Part.isSeparated : Part → Bool
  | separated _ _ _ => true
  | _ => false

/-- Only delimiters are spare. -/
theorem Part.Spells.written_eq {part : Part} {shapes : List Shape} (h : part.Spells shapes)
    (hpart : part.isSeparated = false) : Shape.written shapes = shapes := by
  cases h with
  | listed slot goal close allowEmpty n h => exact Shape.written_listed slot goal _ n
  | repeated slot goal start n => exact Shape.written_repeated slot goal n
  | separated slot goal delimiter n => cases hpart
  | spared slot goal delimiter n => cases hpart
  | _ => rfl

theorem SpellParts.written_eq {parts : List Part} {shapes : List Shape} (h : SpellParts parts shapes)
    (hparts : ∀ part ∈ parts, part.isSeparated = false) : Shape.written shapes = shapes := by
  induction h with
  | nil => rfl
  | cons ha hb ih =>
    obtain ⟨hpart, hparts⟩ := List.forall_mem_cons.1 hparts
    rw [Shape.written_append, ha.written_eq hpart, ih hparts]

theorem SpellItems.written_eq {items : List Item} {shapes : List Shape} (h : SpellItems items shapes)
    (hitems : ∀ part ∈ items.flatMap Item.parts, part.isSeparated = false) :
    Shape.written shapes = shapes := by
  induction h with
  | nil => rfl
  | @cons item items a b ha hb ih =>
    rw [List.flatMap_cons, List.forall_mem_append] at hitems
    rw [Shape.written_append, ih hitems.2]
    congr 1
    cases ha with
    | part h => exact h.written_eq (hitems.1 _ (List.mem_singleton_self _))
    | skip => rfl
    | take _ _ h => exact h.written_eq hitems.1

/-- The rules with separated children: what stands before the first of them is an own token. -/
theorem Production.separates (p : Production) :
    (∀ part ∈ p.rule.items.flatMap Item.parts, part.isSeparated = false) ∨
      ∃ token gap slot goal delimiter, p.rule.described = false ∧
        p.rule.items = [token, .part (.gap gap), .part (.separated slot goal delimiter)] ∧
        (token = .keyword .implements ∧ delimiter = .ampersand ∨
          token = .punct .equals ∧ delimiter = .pipe ∨
          token = .keyword .onType ∧ delimiter = .pipe) := by
  have hcheck := check (fun p => p = .interfaces || p = .unionMembers ||
    p = .of .directiveLocationSet ||
      (p.rule.items.flatMap Item.parts).all fun part => !part.isSeparated) (by decide) p
  simp only [Bool.or_eq_true, decide_eq_true_eq, List.all_eq_true, Bool.not_eq_true'] at hcheck
  rcases hcheck with ((rfl | rfl) | rfl) | h
  · exact .inr ⟨_, .hard, _, _, _, rfl, rfl, .inl ⟨rfl, rfl⟩⟩
  · exact .inr ⟨_, .soft, _, _, _, rfl, rfl, .inr (.inl ⟨rfl, rfl⟩)⟩
  · exact .inr ⟨_, .hard, _, _, _, rfl, rfl, .inr (.inr ⟨rfl, rfl⟩)⟩
  · exact .inl h

/-- Elements without spare words are trimmed if their children are. -/
theorem Elements.trims_of_written {elements : List Element}
    (h : Shape.written (shapes elements) = shapes elements)
    (hchildren : ∀ slot goal c, .child slot goal c ∈ elements → Mark.Trims c.marks) :
    Mark.Trims (marks elements) := by
  induction elements with
  | nil => exact .nil
  | cons element elements ih =>
    rw [marks_cons]
    have hcons : Shape.written [element.shape] = [element.shape] ∧
        Shape.written (shapes elements) = shapes elements := by
      rw [shapes_cons, ← List.singleton_append, Shape.written_append] at h
      exact List.append_inj h (by
        have := congrArg List.length h
        have hle := List.length_filter_le Shape.isWritten [element.shape]
        have hle' := List.length_filter_le Shape.isWritten (shapes elements)
        simp only [Shape.written, List.length_append] at this hle hle' ⊢
        omega)
    refine Mark.Trims.append ?_ (ih hcons.2 fun slot goal c hc =>
      hchildren slot goal c (List.mem_cons_of_mem _ hc))
    cases element with
    | space piece => exact .nil
    | own slot word spare gift =>
      cases spare with
      | true => cases hcons.1
      | false => exact Mark.trims_of_kept (by simp)
    | child slot goal c => exact hchildren slot goal c List.mem_cons_self

/-- Separated children behind an own token are trimmed if the children are. -/
theorem Elements.trims_of_separated {token : Token} {gap : Gap} {slot : Slot} {goal : Goal}
    {delimiter : Punctuator} {elements : List Element}
    (htoken : token = .name Keyword.implements.text ∧ delimiter = .ampersand ∨
      token = .punct .equals ∧ delimiter = .pipe ∨
      token = .name Keyword.onType.text ∧ delimiter = .pipe)
    {rest : List Shape} (hshapes : shapes elements = .plain token :: .space gap.piece :: rest)
    (hrest : (Part.separated slot goal delimiter).Spells rest)
    (hchildren : ∀ slot goal c, .child slot goal c ∈ elements → Mark.Trims c.marks) :
    Mark.Trims (marks elements) := by
  cases hrest with
  | separated _ _ _ n =>
    refine trims_of_written ?_ hchildren
    rw [hshapes, Shape.written_cons, Shape.written_cons (.space gap.piece), Shape.written_separated]
    rfl
  | spared _ _ _ n =>
    have hshapes' : shapes elements = [.plain token] ++ ([.space gap.piece] ++ ([.spare delimiter] ++
        Shape.separated slot goal delimiter n)) := hshapes
    obtain ⟨es, fs, rfl, hes, hfs⟩ := exists_append_of_shapes hshapes'
    obtain ⟨gs, ks, rfl, hgs, hks⟩ := exists_append_of_shapes hfs
    obtain ⟨ls, ms, rfl, hls, hms⟩ := exists_append_of_shapes hks
    obtain ⟨comments, rfl⟩ := eq_own_of_shapes hes
    obtain rfl := eq_space_of_shapes hgs
    obtain ⟨comments', rfl⟩ := eq_own_of_shapes hls
    have hms' : Mark.Trims (marks ms) := by
      refine trims_of_written (by rw [hms, Shape.written_separated]) fun slot goal c hc => ?_
      exact hchildren slot goal c (by simp [hc])
    have hmarks : (marks ([.own .comments ⟨token, comments⟩ false .nothing] ++
        ([.space gap.piece] ++ ([.own .comments ⟨.punct delimiter, comments'⟩ true .nothing] ++ ms)))) =
        ⟨⟨token, comments⟩, false⟩ :: ⟨⟨.punct delimiter, comments'⟩, true⟩ :: marks ms := by
      simp
    rw [hmarks]
    have hwritten : Mark.writtenTokens (⟨⟨token, comments⟩, false⟩ ::
        ⟨⟨.punct delimiter, comments'⟩, true⟩ :: marks ms) =
          token :: Mark.writtenTokens (marks ms) := by
      simp [Mark.writtenTokens, Mark.written]
    rw [Mark.Trims, hwritten]
    rcases htoken with ⟨rfl, rfl⟩ | ⟨rfl, rfl⟩ | ⟨rfl, rfl⟩
    · exact .ampersand hms'
    · exact .pipeOfUnion hms'
    · exact .pipeOfLocations hms'

/-- The tokens of a derivation that are written are trimmed from all of its tokens. -/
theorem Derives.trims {goal : Goal} {marks : List Mark} {pieces : List Piece} {node : Node}
    (h : Derives goal marks pieces node) : Mark.Trims marks := by
  induction h with
  | @production goal p description elements hgoal hreadable hdescribed hspells hdemand hquery
      hdescription hchildren ihdescription ihchildren =>
    rw [Elements.marks_append]
    refine Mark.Trims.append ?_ ?_
    · cases description with
      | none => exact .nil
      | some c => simpa [descriptionElements] using ihdescription c rfl
    · rcases p.separates with hnone | ⟨token, gap, slot, goal, delimiter, -, hitems, htoken⟩
      · exact Elements.trims_of_written (hspells.written_eq hnone) ihchildren
      · rw [hitems] at hspells
        obtain ⟨a, b, hshapes, ha, hb⟩ := hspells.exists_append
        obtain ⟨c, d, rfl, hc, hd⟩ := hb.exists_append
        obtain ⟨e, f, rfl, he, hf⟩ := hd.exists_append
        obtain rfl := hf.eq_nil
        obtain rfl : c = [.space gap.piece] := by cases hc.of_part; rfl
        rw [List.append_nil] at hshapes
        rcases htoken with ⟨rfl, rfl⟩ | ⟨rfl, rfl⟩ | ⟨rfl, rfl⟩ <;> cases ha.of_part
        · exact Elements.trims_of_separated (.inl ⟨rfl, rfl⟩) hshapes he.of_part ihchildren
        · exact Elements.trims_of_separated (.inr (.inl ⟨rfl, rfl⟩)) hshapes he.of_part ihchildren
        · exact Elements.trims_of_separated (.inr (.inr ⟨rfl, rfl⟩)) hshapes he.of_part ihchildren
  | @query goal c comments hgoal hshorthand hchild ih =>
    -- The selection set starts with a brace, which is written.
    obtain ⟨mark, rest, hmarks, hclass⟩ := hchild.startIn
    have hbrace : mark.word.token = .punct .braceOpen := by
      have hstarts : (Goal.kind .selectionSet).starts = [.punct .braceOpen] := by decide
      rw [hstarts] at hclass
      exact Token.eq_punct_of_class (List.mem_singleton.1 hclass)
    have hwritten : Mark.writtenTokens (queryMark comments :: c.marks) =
        Mark.writtenTokens c.marks := by
      simp [Mark.writtenTokens, Mark.written, queryMark]
    rw [Mark.Trims, hmarks, List.map_cons, hbrace] at ih
    rw [Mark.Trims, hwritten, hmarks, List.map_cons, List.map_cons, hbrace]
    generalize Mark.writtenTokens (mark :: rest) = tokens at ih ⊢
    cases ih with
    | keep _ h => exact .query h
  | @nonNull marks pieces node comments h hkind ih =>
    exact ih.append (Mark.trims_of_kept (by simp))

end GraphQLTree
