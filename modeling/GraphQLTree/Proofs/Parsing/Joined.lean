import GraphQLTree.Proofs.Parsing.Grammar
import GraphQLTree.Proofs.Parsing.RoundTrip
import GraphQLTree.Proofs.Parsing.Typed
import GraphQLTree.Proofs.Token.Joined

/-!
# Documents one behind the other

Two documents with a line break between them are a document: its definitions are those of the first and
those of the second, and its comments are those of the second (`parseDocument_join`). Where the tokens of
the first end, a definition ends, whatever the second starts with but a brace. A brace would be taken for
the body of a last definition that has none.
-/

namespace GraphQLTree

open Language

/-! ### Tokens -/

/-- The definitions of two documents follow each other, unless the second starts with a brace. -/
theorem Language.YieldsDocument.append {s t : List Token} {m n : Node} (hs : YieldsDocument s m)
    (ht : YieldsDocument t n) (hbrace : t.head? ≠ some (.punct .braceOpen)) :
    YieldsDocument (s ++ t) (.mk .document (.size 0) (m.children ++ n.children)) := by
  obtain ⟨ds, hne, hds, hapart, rfl, rfl⟩ := hs
  obtain ⟨es, -, hes, hapart', rfl, rfl⟩ := ht
  refine ⟨ds ++ es, by simp [hne], List.forall_mem_append.2 ⟨hds, hes⟩, ?_,
    List.flatMap_append.symm, by rw [List.map_append]; rfl⟩
  refine List.isChain_append.2 ⟨hapart, hapart', fun d _ e he _ hopen => hbrace ?_⟩
  obtain ⟨es, rfl⟩ := List.head?_eq_some_iff.1 he
  obtain ⟨tokens, hopen⟩ := List.head?_eq_some_iff.1 hopen
  rw [List.flatMap_cons, hopen]
  rfl

/-- A text without lexical error is parsed as the document that the grammar derives from its tokens. -/
theorem exists_document_of_yields {text : String} {node : Node} (hvalid : (tokenize text).2 = none)
    (h : YieldsDocument (Token.significant (tokenize text).1) node) :
    ∃ document, parseDocument text = .ok document ∧ document.bare = node := by
  rw [← map_token_lexemes hvalid] at h
  obtain ⟨rest, hdone⟩ := (TokenStream.read_document_iff _ node).2 h
  rcases Target.parse_of_read Target.document_mem_parsable text with
    ⟨document, tree, rest', hread, hparse, rfl⟩ | ⟨failure, rest', hfailed, -, -⟩
  · rw [hdone] at hread
    injection hread with hnode
    exact ⟨document, hparse, hnode.symm⟩
  · cases hfailed.symm.trans hdone

/-- The scraps of a text without lexical error are sound. -/
theorem Scrap.sound_of_tokenize {text : String} (hvalid : (tokenize text).2 = none) :
    ∀ scrap ∈ scanAll text.toList, scrap.token.Sound := by
  refine TokenStream.sound_of_significant (List.append_nil _).symm ?_
  rw [← tokens_of_tokenize hvalid]
  exact Token.sound_of_tokenize hvalid

/-! ### Comments -/

/-- The comments of a document are those behind the last word of its text. -/
theorem inSlot_comments_of_parse {text : String} {document : Node}
    (h : parseDocument text = .ok document) :
    document.inSlot .comments = (Word.ofText text.toList).2.map Node.ofComment := by
  obtain ⟨children, comments, hread, rfl⟩ := exists_definitions h
  rw [Node.inSlot_comments_ofDefinitions, hread.words_eq]

/-- A text that is parsed as a document has words. -/
theorem words_ne_nil_of_parse {text : String} {document : Node}
    (h : parseDocument text = .ok document) : (Word.ofText text.toList).1 ≠ [] := by
  obtain ⟨children, comments, hread, -⟩ := exists_definitions h
  obtain ⟨c, children, rfl⟩ := List.exists_cons_of_ne_nil hread.ne_nil
  have hmarks := (hread.derives c List.mem_cons_self).startIn.ne_nil
  simp [hread.words_eq, hmarks]

/-! ### Documents -/

/-- Two texts that are parsed as documents are parsed as one with a line break between them, unless the
tokens of the second start with a brace. The definitions, without their comments, are those of the first
and those of the second, and the comments behind them are those of the second. -/
theorem parseDocument_join {x y : String} {a b : Node} (hx : parseDocument x = .ok a)
    (hy : parseDocument y = .ok b)
    (hbrace : (Token.significant (tokenize y).1).head? ≠ some (.punct .braceOpen)) :
    ∃ document, parseDocument (x ++ "\n" ++ y) = .ok document ∧
      (document.inSlot .definitions).map Node.bare =
        (a.inSlot .definitions).map Node.bare ++ (b.inSlot .definitions).map Node.bare ∧
      document.inSlot .comments = b.inSlot .comments := by
  obtain ⟨hvalidx, hyieldsx⟩ := yieldsDocument_of_parse hx
  obtain ⟨hvalidy, hyieldsy⟩ := yieldsDocument_of_parse hy
  have htext : (x ++ "\n" ++ y).toList = x.toList ++ '\n' :: y.toList := by simp
  have hwords := Word.ofText_append_lineFeed (Scrap.sound_of_tokenize hvalidx) y.toList
  rw [← htext] at hwords
  have htokens : (Word.ofText (x ++ "\n" ++ y).toList).1.map Word.token =
      Token.significant (tokenize x).1 ++ Token.significant (tokenize y).1 := by
    rw [hwords, List.map_append, Word.map_token_carry, significant_tokenize hvalidx,
      significant_tokenize hvalidy]
  have hyields := ((hyieldsx _).2 rfl).append ((hyieldsy _).2 rfl) hbrace
  have hvalid : (tokenize (x ++ "\n" ++ y)).2 = none := by
    rw [tokenize_eq_none_iff]
    refine fun word hword => hyields.valid _ ?_
    rw [← htokens]
    exact List.mem_map_of_mem hword
  rw [← htokens, ← significant_tokenize hvalid] at hyields
  obtain ⟨document, hparse, hbare⟩ := exists_document_of_yields hvalid hyields
  refine ⟨document, hparse, ?_, ?_⟩
  · rw [← Node.inSlot_bare document rfl, ← Node.inSlot_bare a rfl, ← Node.inSlot_bare b rfl, hbare]
    simp [Node.inSlot, Node.children]
  · rw [inSlot_comments_of_parse hparse, inSlot_comments_of_parse hy, hwords,
      Word.carry_snd (words_ne_nil_of_parse hy)]

/-- A type without a body and a comment behind it, as they are parsed from ten bytes. -/
def openType : Node :=
  Node.ofDefinitions 10 [.mk (.objectType .definition) .none [(.name, .ofName "A")]] [⟨false, " a"⟩]

/-- A union without types and a comment behind it, as they are parsed from eleven bytes. -/
def openUnion : Node :=
  Node.ofDefinitions 11 [.mk (.unionType .definition) .none [(.name, .ofName "B")]] [⟨false, " b"⟩]

/-- The comment behind the type isn't behind the document any more when a union follows. -/
theorem parseDocument_join_open : parseDocument "type A\n# a" = .ok openType ∧
    parseDocument "union B\n# b" = .ok openUnion ∧
    (Token.significant (tokenize "union B\n# b").1).head? ≠ some (.punct .braceOpen) ∧
    ∃ document, parseDocument ("type A\n# a" ++ "\n" ++ "union B\n# b") = .ok document ∧
      (document.inSlot .definitions).map Node.bare =
        (openType.inSlot .definitions).map Node.bare ++ (openUnion.inSlot .definitions).map Node.bare ∧
      document.inSlot .comments = openUnion.inSlot .comments := by
  have htype : parseDocument "type A\n# a" = .ok openType := by decide +kernel
  have hunion : parseDocument "union B\n# b" = .ok openUnion := by decide +kernel
  have hbrace : (Token.significant (tokenize "union B\n# b").1).head? ≠ some (.punct .braceOpen) := by
    decide +kernel
  exact ⟨htype, hunion, hbrace, parseDocument_join htype hunion hbrace⟩

end GraphQLTree
