import GraphQLTree.Proofs.Grammar.Rest
import GraphQLTree.Proofs.Parsing.Target

/-!
# Ignored characters and comments are inert

What a text is parsed as depends on its tokens other than comments only: white space, commas, byte order
marks, the style of line breaks and the places of comments change the comments of nodes and the places
of problems, but neither the nodes themselves nor the messages (`Target.parse_inert`).
-/

namespace GraphQLTree

namespace Target

/-- Reading fails at a valid token, or at the end of the text, if all tokens of the text are valid. -/
theorem problem_of_failed {target : Target} {text : String} (hvalid : (tokenize text).2 = none)
    {failure : Failure} {rest : List Lexeme}
    (h : (TokenStream.ofText text).read target = .failed failure rest) :
    (failure.diagnostic text.toList rest).problem =
      .unexpected (firstToken rest) failure.construct failure.expected := by
  have hrest : rest <:+ (TokenStream.ofText text).lexemes := by
    have hleaves := TokenStream.read_leaves (TokenStream.ofText text) target
    rwa [h] at hleaves
  refine diagnostic_problem failure text.toList fun lexeme hmem => ?_
  have hword : lexeme.word ∈ (Word.ofText text.toList).1 := by
    rw [← TokenStream.map_word_lexemes]
    exact List.mem_map_of_mem (hrest.subset hmem)
  exact (tokenize_eq_none_iff text).1 hvalid lexeme.word hword

/-- Texts without lexical errors that have the same tokens but for comments are parsed as nodes that are
the same but for comments, or have syntax errors with the same message. -/
theorem parse_inert {target : Target} (htarget : target ∈ parsable) {x y : String}
    (hx : (tokenize x).2 = none) (hy : (tokenize y).2 = none)
    (htokens : Token.significant (tokenize x).1 = Token.significant (tokenize y).1) :
    (∃ m n, target.parse x = .ok m ∧ target.parse y = .ok n ∧ m.bare = n.bare) ∨
      ∃ d e, target.parse x = .error d ∧ target.parse y = .error e ∧
        d.category = .syntactic ∧ e.category = .syntactic ∧ d.message = e.message := by
  rw [← map_token_lexemes hx, ← map_token_lexemes hy] at htokens
  rcases parse_of_read htarget x with ⟨m, tree, rest, hreadx, hparsex, hm⟩ |
    ⟨failure, rest, hreadx, hfailx, hparsex⟩ <;>
  rcases parse_of_read htarget y with ⟨n, tree', rest', hready, hparsey, hn⟩ |
    ⟨failure', rest', hready, hfaily, hparsey⟩ <;>
  rw [htokens, hready] at hreadx
  · injection hreadx with htree
    exact .inl ⟨m, n, hparsex, hparsey, by rw [hm, hn, htree]⟩
  · cases hreadx
  · cases hreadx
  · injection hreadx with hfailure hrest
    refine .inr ⟨_, _, hparsex, hparsey, ?_⟩
    -- Both readers stop in front of the same token, though at different places.
    have hfirst : firstToken rest' = firstToken rest := by
      rw [← firstToken_bare, hrest, firstToken_bare]
    have hproblemx := problem_of_failed hx hfailx
    have hproblemy := problem_of_failed hy hfaily
    rw [hfailure, hfirst] at hproblemy
    refine ⟨?_, ?_, ?_⟩
    · rw [Diagnostic.category, hproblemx]
      rfl
    · rw [Diagnostic.category, hfailure, hproblemy]
      rfl
    · rw [Diagnostic.message, Diagnostic.message, hfailure, hproblemx, hproblemy]

/-- The line breaks and comments in a list of values are inert. -/
theorem parse_inert_list :
    (∃ m n, (goal (.value .constant)).parse "[1,A]" = .ok m ∧
        (goal (.value .constant)).parse "[1 # one\n A]" = .ok n ∧ m.bare = n.bare) ∨
      ∃ d e, (goal (.value .constant)).parse "[1,A]" = .error d ∧
        (goal (.value .constant)).parse "[1 # one\n A]" = .error e ∧
        d.category = .syntactic ∧ e.category = .syntactic ∧ d.message = e.message :=
  parse_inert (by decide) (by decide) (by decide) (by decide)

end Target

end GraphQLTree
