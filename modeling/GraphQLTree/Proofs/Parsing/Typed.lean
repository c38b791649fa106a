import GraphQLTree.Proofs.Grammar.Spelling
import GraphQLTree.Proofs.Grammar.Typed
import GraphQLTree.Proofs.Parsing.Families
import GraphQLTree.Proofs.Parsing.Regular

/-!
# Parsed nodes are typed

Whatever a text is parsed as, the node that comes of it is of a kind that the target asks for and is typed
(`Target.typed_of_parse`), so what is said of typed nodes holds of all that is parsed.
-/

namespace GraphQLTree

namespace Node

theorem typed_ofComment (comment : Comment) : (ofComment comment).Typed := by
  rw [ofComment]
  refine .intro (fits_leaf ?_ _) (by simp [children])
  cases comment.inline <;> rfl

theorem inSlot_comments_ofDefinitions (size : Nat) (definitions : List Node)
    (comments : List Comment) :
    (ofDefinitions size definitions comments).inSlot .comments = comments.map ofComment := by
  have hentries : entriesIn .comments (definitions.map (Slot.definitions, ·) ++
      ofComments .comments comments) = ofComments .comments comments := by
    rw [entriesIn_append, entriesIn_map, if_neg (by decide), List.nil_append, entriesIn_ofComments]
  refine (congrArg (List.map Prod.snd) hentries).trans ?_
  rw [ofComments, List.map_map]
  rfl

/-- A document is typed if its definitions are definitions and typed. -/
theorem typed_ofDefinitions {definitions : List Node}
    (hkinds : ∀ definition ∈ definitions, Content.definition.accepts definition.kind = true)
    (h : ∀ definition ∈ definitions, definition.Typed) (size : Nat) (comments : List Comment) :
    (ofDefinitions size definitions comments).Typed := by
  have hfields : ∀ field ∈ Kind.document.fields,
      field.arity = .list ∧ (field = .list .definitions .definition ∨ field = .comments) := by
    decide
  refine .intro ⟨?_, fun field hfield => ?_, fun field hfield child hchild => ?_⟩ ?_
  · have harranged : (ofDefinitions size definitions comments).children =
        arrange .document (ofDefinitions size definitions comments).children := by
      have hsplit : arrange .document (ofDefinitions size definitions comments).children =
          entriesIn .definitions (ofDefinitions size definitions comments).children ++
            entriesIn .comments (ofDefinitions size definitions comments).children :=
        congrArg (_ ++ ·) (List.append_nil _)
      rw [hsplit, entriesIn_children, entriesIn_children, inSlot_ofDefinitions,
        inSlot_comments_ofDefinitions, List.map_map]
      rfl
    exact harranged
  · rw [(hfields field hfield).1]
    trivial
  · rcases (hfields field hfield).2 with rfl | rfl
    · exact hkinds child (inSlot_ofDefinitions size definitions comments ▸ hchild)
    · obtain ⟨comment, -, rfl⟩ :=
        List.mem_map.1 (inSlot_comments_ofDefinitions size definitions comments ▸ hchild)
      exact comment.accepts_comment
  · refine List.forall_mem_append.2 ⟨fun entry hentry => ?_, fun entry hentry => ?_⟩
    · obtain ⟨definition, hdefinition, rfl⟩ := List.mem_map.1 hentry
      exact h definition hdefinition
    · obtain ⟨comment, -, rfl⟩ := List.mem_map.1 hentry
      exact typed_ofComment comment

end Node

namespace Target

/-- A node that is parsed of a text is of a kind that the target asks for and is typed. -/
theorem typed_of_parse {target : Target} (htarget : target ∈ parsable) {text : String} {node : Node}
    (h : target.parse text = .ok node) : target.content.accepts node.kind = true ∧ node.Typed := by
  cases target with
  | document =>
    obtain ⟨children, comments, hread, rfl⟩ := exists_definitions h
    refine ⟨rfl, Node.typed_ofDefinitions ?_ ?_ _ comments⟩
    · exact List.forall_mem_map.2 fun c hc => (hread.derives c hc).accepts
    · exact List.forall_mem_map.2 fun c hc => (hread.derives c hc).typed
  | goal g =>
    obtain ⟨rest, hread⟩ := parse_goal_eq_ok.1 h
    obtain ⟨c, rfl, -, hderives⟩ :=
      Goal.read_sound _ g _ _ _ (isReadable_of_parsable htarget) hread
    exact ⟨hderives.accepts, hderives.typed⟩

end Target

end GraphQLTree
