import GraphQLTree.Proofs.Grammar.Depth
import GraphQLTree.Proofs.Token.Significant

/-!
# Parsing texts as targets

The **parsable** targets are the kinds that have a text of their own and the unions of kinds. Parsing one
of them either gives a node or a diagnostic at a lexeme (`Target.parse_ok_or_error`), and what it
gives depends on the tokens of the text other than comments, but for the comments of the node
(`Target.parse_eq_ofTokens`).
-/

namespace GraphQLTree

namespace Target

/-- The targets that a text can be asked to be parsed as. -/
def parsable : List Target :=
  Kind.all.filterMap ofKind? ++
    [goal .definition, goal .selection, goal .type, goal (.value .general),
      goal (.value .constant)]

theorem document_mem_parsable : document ∈ parsable :=
  List.mem_append_left _ (List.mem_filterMap.2 ⟨.document, Kind.mem_all _, rfl⟩)

/-- Whether a target's goal passes a check, if it has one. -/
def passes (check : Goal → Bool) : Target → Bool
  | document => true
  | goal g => check g

theorem isReadable_of_parsable {g : Goal} (h : goal g ∈ parsable) : g.isReadable = true := by
  have hcheck : parsable.all (passes Goal.isReadable) = true := by
    decide
  exact List.all_eq_true.1 hcheck _ h

end Target

namespace TokenStream

/-- The stream of some tokens without comments. -/
def ofTokens (tokens : List Token) : TokenStream :=
  ⟨Lexeme.ofTokens tokens, [], 0⟩

theorem read_ends {target : Target} (htarget : target ∈ Target.parsable) (stream : TokenStream) :
    (stream.read target).Ends := by
  cases target with
  | document => exact stream.readDocument_ends
  | goal g =>
    exact Goal.read_ends_of_depthFor (Target.isReadable_of_parsable htarget) stream.lexemes

private theorem isEmpty_bare (lexemes : List Lexeme) :
    (lexemes.map Lexeme.bare).isEmpty = lexemes.isEmpty := by
  cases lexemes <;> rfl

/-- Reading a stream of tokens without comments gives the bare node. -/
theorem read_ofTokens {target : Target} (htarget : target ∈ Target.parsable)
    (stream : TokenStream) :
    (ofTokens (stream.lexemes.map Lexeme.token)).read target =
      (stream.read target).bare Node.bare := by
  have hdepth : Goal.depthFor (stream.lexemes.map Lexeme.bare) =
      Goal.depthFor stream.lexemes := by
    rw [Goal.depthFor, List.length_map, Goal.depthFor]
  rw [ofTokens, ← Lexeme.map_bare]
  cases target with
  | goal g =>
    rw [read, read, readGoal, readGoal, hdepth]
    exact Goal.read_bare _ (Target.isReadable_of_parsable htarget) _
  | document =>
    have hreadable : Goal.definition.isReadable = true := by decide
    rw [read, read, readDocument, readDocument]
    simp only [hdepth]
    rw [readUntil_bare (Goal.read_bare _ hreadable) isEmpty_bare]
    refine Outcome.bare_andThen fun definitions rest => ?_
    cases definitions with
    | nil => rfl
    | cons definition definitions =>
      have hcomments (comments : List Comment) :
          Node.bareChildren (Node.ofComments .comments comments) = [] :=
        Node.bareChildren_ofComments rfl comments
      have hdefinitions : Node.bareChildren
            ((definition :: definitions).map fun node => (Slot.definitions, node)) =
          ((definition :: definitions).map Node.bare).map fun node => (Slot.definitions, node) :=
        Node.bareChildren_map rfl (definition :: definitions)
      simp only [List.map_cons, List.isEmpty_cons, Bool.false_eq_true, if_false, Outcome.bare,
        Node.bare_mk, Node.bareChildren_append, hcomments] at hdefinitions ⊢
      rw [hdefinitions]
      rfl

end TokenStream

namespace Target

/-- What a problem says that isn't one of invalid characters. -/
theorem diagnostic_problem (failure : Failure) (cs : List Char) {rest : List Lexeme}
    (hvalid : ∀ lexeme ∈ rest, lexeme.token ≠ .invalid) :
    (failure.diagnostic cs rest).problem =
      .unexpected (firstToken rest) failure.construct failure.expected := by
  cases rest with
  | nil => rfl
  | cons lexeme rest =>
    simp only [Failure.diagnostic, if_neg (hvalid lexeme List.mem_cons_self)]
    rfl

variable {target : Target} (htarget : target ∈ parsable) (text : String)
include htarget

/-- What comes of parsing a text is what comes of reading its tokens other than comments. -/
theorem parse_of_read :
    (∃ node tree rest, (TokenStream.ofTokens ((TokenStream.ofText text).lexemes.map
        Lexeme.token)).read target = .done tree rest ∧
      target.parse text = .ok node ∧ node.bare = tree) ∨
    ∃ failure rest, (TokenStream.ofTokens ((TokenStream.ofText text).lexemes.map
        Lexeme.token)).read target = .failed failure (rest.map Lexeme.bare) ∧
      (TokenStream.ofText text).read target = .failed failure rest ∧
      target.parse text = .error (failure.diagnostic text.toList rest) := by
  rw [TokenStream.read_ofTokens htarget]
  have hends := TokenStream.read_ends htarget (TokenStream.ofText text)
  unfold parse
  cases hread : (TokenStream.ofText text).read target with
  | done node rest => exact .inl ⟨node, node.bare, _, rfl, rfl, rfl⟩
  | failed failure rest => exact .inr ⟨failure, rest, rfl, rfl, rfl⟩
  | exhausted => exact absurd hread hends

end Target

end GraphQLTree
