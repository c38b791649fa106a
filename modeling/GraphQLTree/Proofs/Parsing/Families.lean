import GraphQLTree.Proofs.Grammar.Variables
import GraphQLTree.Tree.Build

/-!
# Values and constant values

A text that is parsed as a constant value is parsed as the same value of the general family, and a text
whose value has no variable is parsed as a constant value. What keeps a value from being constant is
reported at the dollar sign of its first variable (`Target.parse_families`).
-/

namespace GraphQLTree.Target

theorem parse_goal_eq_ok {goal : Goal} {text : String} {node : Node} :
    (Target.goal goal).parse text = .ok node ↔
      ∃ rest, (TokenStream.ofText text).readGoal goal = .done node rest := by
  rw [parse, TokenStream.read]
  cases (TokenStream.ofText text).readGoal goal <;> simp

/-- A failure in front of a dollar sign, where constants are asked for. -/
theorem parse_goal_of_failed_constant {goal : Goal} {text : String} {dollar : Lexeme}
    {after : List Lexeme} (hdollar : dollar.token = .punct .dollar)
    (h : (TokenStream.ofText text).readGoal goal = .failed .constant (dollar :: after)) :
    (Target.goal goal).parse text =
      .error (.ofCut (.unexpected (some (.punct .dollar)) .value (some .constantValue))
        (.ofSpan text.toList dollar.span)) := by
  rw [parse, TokenStream.read, h]
  simp [Failure.diagnostic, hdollar, Failure.constant]

section Values

variable (text : String)

/-- The two readers of a text's values go in step. -/
theorem readGoal_narrows : Narrows Node.widen (TokenStream.ofText text).lexemes
    ((TokenStream.ofText text).readGoal (.value .constant))
    ((TokenStream.ofText text).readGoal (.value .general)) :=
  Goal.read_narrows _ rfl _

/-- What the reader of the general family takes of a text names the variables of the value. -/
theorem readGoal_names {node : Node} {rest : List Lexeme}
    (h : (TokenStream.ofText text).readGoal (.value .general) = .done node rest) :
    ∃ taken, (TokenStream.ofText text).lexemes = taken ++ rest ∧ Naming taken node.variableUses := by
  have hnames := Goal.read_names (Goal.depthFor (TokenStream.ofText text).lexemes)
    (show (Goal.value .general).isOf .general = true from rfl) (TokenStream.ofText text).lexemes
  rw [TokenStream.readGoal] at h
  rw [h] at hnames
  obtain ⟨taken, texts, htaken, hnaming, rfl⟩ := hnames
  exact ⟨taken, htaken, hnaming⟩

/-- A constant value is a value. -/
theorem parse_general_of_constant {c : Node} (h : (goal (.value .constant)).parse text = .ok c) :
    (goal (.value .general)).parse text = .ok c.widen := by
  obtain ⟨rest, hconstant⟩ := parse_goal_eq_ok.1 h
  have hnarrows := readGoal_narrows text
  rw [hconstant] at hnarrows
  generalize hlexemes : (TokenStream.ofText text).lexemes = lexemes at hnarrows
  generalize hgeneral : (TokenStream.ofText text).readGoal (.value .general) = general at hnarrows
  cases hnarrows with
  | done htaken result rest => exact parse_goal_eq_ok.2 ⟨rest, hgeneral⟩

/-- A value without variables is constant. -/
theorem parse_constant_of_general {v : Node} (h : (goal (.value .general)).parse text = .ok v)
    (hv : v.variableUses = []) :
    ∃ c, (goal (.value .constant)).parse text = .ok c ∧ v = c.widen := by
  obtain ⟨rest, hgeneral⟩ := parse_goal_eq_ok.1 h
  obtain ⟨taken, htaken, hnaming⟩ := readGoal_names text hgeneral
  rw [hv] at hnaming
  have hnarrows := readGoal_narrows text
  rw [hgeneral, htaken] at hnarrows
  generalize hconstant : (TokenStream.ofText text).readGoal (.value .constant) = constant at hnarrows
  generalize hlexemes : taken ++ rest = lexemes at hnarrows
  cases hnarrows with
  | done _ result rest => exact ⟨result, parse_goal_eq_ok.2 ⟨rest, hconstant⟩, rfl⟩
  | @stopped before after dollar _ hbefore hdollar hleaves =>
    -- The general reader is past the dollar sign, which is in what it has taken.
    obtain ⟨passed, hpassed⟩ := hleaves
    have hsame : taken = before ++ dollar :: passed := by
      refine List.append_cancel_right (hlexemes.trans ?_)
      rw [List.append_assoc, List.cons_append, hpassed]
    exact absurd hdollar (hnaming.constant dollar (by simp [hsame]))

/-- A value with variables is refused at the dollar sign of the first of them. -/
theorem parse_constant_of_variable {v : Node} {x : String} {xs : List String}
    (h : (goal (.value .general)).parse text = .ok v) (hv : v.variableUses = x :: xs) :
    ∃ before dollar name after,
      (TokenStream.ofText text).lexemes = before ++ dollar :: name :: after ∧ Constant before ∧
        dollar.token = .punct .dollar ∧ name.token = .name x ∧
        (goal (.value .constant)).parse text =
          .error (.ofCut (.unexpected (some (.punct .dollar)) .value (some .constantValue))
            (.ofSpan text.toList dollar.span)) := by
  obtain ⟨rest, hgeneral⟩ := parse_goal_eq_ok.1 h
  obtain ⟨taken, htaken, hnaming⟩ := readGoal_names text hgeneral
  rw [hv] at hnaming
  obtain ⟨before, dollar, name, after, rfl, hbefore, hdollar, hname⟩ := hnaming.exists_first
  have hnarrows := readGoal_narrows text
  rw [hgeneral] at hnarrows
  generalize hconstant : (TokenStream.ofText text).readGoal (.value .constant) = constant at hnarrows
  generalize hlexemes : (TokenStream.ofText text).lexemes = lexemes at hnarrows
  have hfirst : (TokenStream.ofText text).lexemes = before ++ dollar :: name :: (after ++ rest) := by
    simp [htaken]
  cases hnarrows with
  | @done taken' htaken' result _ =>
    have hsame : before ++ dollar :: name :: after = taken' :=
      List.append_cancel_right (htaken.symm.trans hlexemes)
    exact absurd hdollar (htaken' dollar (by simp [← hsame]))
  | stopped hbefore' hdollar' hleaves =>
    obtain ⟨rfl, rfl, rfl⟩ := hbefore.first_unique hbefore' hdollar hdollar' (hfirst.symm.trans hlexemes)
    exact ⟨before, dollar, name, after ++ rest, rfl, hbefore, hdollar, hname,
      parse_goal_of_failed_constant hdollar hconstant⟩

/-- What is no value is no constant value. -/
theorem parse_constant_of_error {d : Diagnostic}
    (h : (goal (.value .general)).parse text = .error d) :
    ∃ d', (goal (.value .constant)).parse text = .error d' := by
  cases hconstant : (goal (.value .constant)).parse text with
  | error d' => exact ⟨d', rfl⟩
  | ok c =>
    rw [parse_general_of_constant text hconstant] at h
    cases h

end Values

/-- The two families of values agree on every text. What parses as a constant value parses as the
same value of the general family, with its comments. What parses as a value without variables parses
as a constant value. What parses as a value with variables is refused as a constant value at the dollar
sign of its first variable, which is the first dollar sign of the text. What doesn't parse as a value
doesn't parse as a constant value. And a constant value is printed as it is printed in the general
family. -/
theorem parse_families (text : String) :
    (∀ c, (goal (.value .constant)).parse text = .ok c →
      (goal (.value .general)).parse text = .ok c.widen) ∧
    (∀ v, (goal (.value .general)).parse text = .ok v → v.variableUses = [] →
      ∃ c, (goal (.value .constant)).parse text = .ok c) ∧
    (∀ v x xs, (goal (.value .general)).parse text = .ok v → v.variableUses = x :: xs →
      ∃ before dollar name after,
        (TokenStream.ofText text).lexemes = before ++ dollar :: name :: after ∧
        (∀ lexeme ∈ before, lexeme.token ≠ .punct .dollar) ∧
        dollar.token = .punct .dollar ∧ name.token = .name x ∧
        (goal (.value .constant)).parse text =
          .error (.ofCut (.unexpected (some (.punct .dollar)) .value (some .constantValue))
            (.ofSpan text.toList dollar.span))) ∧
    (∀ d, (goal (.value .general)).parse text = .error d →
      ∃ d', (goal (.value .constant)).parse text = .error d') ∧
    ∀ (c : Node) (style : Style), c.widen.print style = c.print style := by
  refine ⟨fun c => parse_general_of_constant text, fun v h hv => ?_,
    fun v x xs => parse_constant_of_variable text, fun d => parse_constant_of_error text,
    fun c style => c.print_widen style⟩
  obtain ⟨c, hc, -⟩ := parse_constant_of_general text h hv
  exact ⟨c, hc⟩

/-- A list with a constant and a variable. -/
theorem parse_families_list :
    ∃ before dollar name after,
      (TokenStream.ofText "[1, $a]").lexemes = before ++ dollar :: name :: after ∧
      (∀ lexeme ∈ before, lexeme.token ≠ .punct .dollar) ∧
      dollar.token = .punct .dollar ∧ name.token = .name "a" ∧
      (goal (.value .constant)).parse "[1, $a]" =
        .error (.ofCut (.unexpected (some (.punct .dollar)) .value (some .constantValue))
          (.ofSpan "[1, $a]".toList dollar.span)) :=
  (parse_families "[1, $a]").2.2.1
    (.mk (.listValue .general) .none
      [(.values, .leaf .intValue (.text "1") []), (.values, .named .variableUse "a" [])])
    "a" [] (by decide +kernel) (by decide)

end GraphQLTree.Target
