import GraphQLTree.Proofs.Diagnostic.Snippet
import GraphQLTree.Proofs.Parsing.Lexical
import GraphQLTree.Proofs.Parsing.Offending

/-!
# Carets point at errors

An error of a parser or of tokenizing is at a token of the text or at the end of the text
(`exists_cut_of_error`). Its snippet ends with the line of the error and with carets that start below the
error, unless that line is an empty one at the end of the text (`error_shownIn`).
-/

namespace GraphQLTree

/-- A text is cut at a token into characters. -/
theorem Scrap.exists_cut {cs : List Char} {place : Token × Span} (h : place ∈ places cs) :
    ∃ before inside after, cs = before ++ (inside ++ after) ∧ inside ≠ [] ∧
      Cut.ofSpan cs place.2 = ⟨before, inside, after⟩ := by
  obtain ⟨inside, hslice, -⟩ := (tiles_places cs).exists_slice? place h
  obtain ⟨before, after, hcs, hstart, hstop⟩ := Text.slice?_eq_some_iff.1 hslice
  have hcs : cs = before ++ (inside ++ after) := hcs
  have hlt := ((tiles_places cs).lt_of_mem place h).2
  refine ⟨before, inside, after, hcs, ?_, ?_⟩
  · rintro rfl
    rw [Text.utf8Length_nil] at hstop
    omega
  · have hspan : place.2 =
        ⟨Text.utf8Length before, Text.utf8Length before + Text.utf8Length inside⟩ := by
      rw [hstart, hstop]
    rw [hspan, hcs, Cut.ofSpan_append]

/-- A diagnostic at a lexeme of a text is at a token, which has characters. -/
private theorem exists_cut_of_lexeme {text : String} {lexeme : Lexeme}
    (h : lexeme ∈ (TokenStream.ofText text).lexemes) :
    ∃ cut, Cut.ofSpan text.toList lexeme.span = cut ∧ cut.IsAt text (some lexeme.token) ∧
      cut.inside ≠ [] := by
  obtain ⟨before, inside, after, hcs, hne, hcut⟩ := Scrap.exists_cut (TokenStream.mem_places h)
  exact ⟨⟨before, inside, after⟩, hcut, ⟨lexeme, h, rfl, hcut.symm, hcs⟩, hne⟩

/-- An error is at a token or at the end of its text. -/
theorem exists_cut_of_error {text : String} {diagnostic : Diagnostic}
    (h : (∃ target ∈ Target.parsable, target.parse text = .error diagnostic) ∨
      (tokenize text).2 = some diagnostic) :
    ∃ problem cut found, diagnostic = .ofCut problem cut ∧ cut.IsAt text found ∧
      (cut.inside = [] → found = none) := by
  rcases h with ⟨target, htarget, hparse⟩ | htokenize
  · rcases Target.parse_passes htarget text with ⟨node, hnode, -⟩ |
      ⟨failure, taken, rest, hlexemes, -, herror⟩
    · cases hnode.symm.trans hparse
    · obtain rfl := Except.error.inj (herror.symm.trans hparse)
      cases rest with
      | nil =>
        have hcut := Cut.ofSpan_append text.toList [] []
        rw [List.append_nil, List.append_nil] at hcut
        refine ⟨.unexpected none failure.construct failure.expected, ⟨text.toList, [], []⟩, none, ?_, rfl,
          fun _ => rfl⟩
        rw [← hcut]
        rfl
      | cons lexeme rest =>
        have hmem : lexeme ∈ (TokenStream.ofText text).lexemes :=
          hlexemes ▸ List.mem_append_right _ List.mem_cons_self
        obtain ⟨cut, hcut, hat, hne⟩ := exists_cut_of_lexeme hmem
        by_cases hinvalid : lexeme.token = .invalid
        · rw [Failure.diagnostic, if_pos hinvalid, hcut]
          exact ⟨_, cut, _, rfl, hat, fun hnil => absurd hnil hne⟩
        · rw [Failure.diagnostic, if_neg hinvalid, hcut]
          exact ⟨_, cut, _, rfl, hat, fun hnil => absurd hnil hne⟩
  · obtain ⟨lexeme, hfind, rfl⟩ := Option.map_eq_some_iff.1 (tokenize_snd text ▸ htokenize)
    obtain ⟨cut, hcut, hat, hne⟩ := exists_cut_of_lexeme (List.mem_of_find?_eq_some hfind)
    rw [hcut]
    exact ⟨_, cut, _, rfl, hat, fun hnil => absurd hnil hne⟩

theorem Cut.IsAt.toList_eq {cut : Cut} {text : String} {found : Option Token} (h : cut.IsAt text found) :
    text.toList = cut.before ++ (cut.inside ++ cut.after) := by
  cases found with
  | none =>
    obtain rfl : cut = ⟨text.toList, [], []⟩ := h
    simp
  | some token =>
    obtain ⟨lexeme, -, -, -, htext⟩ := h
    exact htext

/-- The snippet of an error at a span without line feed ends with the line that the error is on, under the
number that its position says, and with carets right below that start in the column of the position. The
only line that isn't shown is an empty one at the end of a text: an error there has its carets below the
line before, if there is one. -/
theorem error_shownIn {text : String} {diagnostic : Diagnostic}
    (h : (∃ target ∈ Target.parsable, target.parse text = .error diagnostic) ∨
      (tokenize text).2 = some diagnostic) :
    ∃ problem cut found, diagnostic = .ofCut problem cut ∧ cut.IsAt text found ∧
      ('\n' ∉ cut.inside → ∃ line,
        (text.toList.splitOn '\n')[cut.position.line - 1]? = some line ∧
        (line ≠ [] → cut.position.ShownIn line cut.snippet) ∧
        (line = [] → found = none ∧ (text = "" ∨ ∃ above shown,
          (text.toList.splitOn '\n')[cut.position.line - 2]? = some above ∧
          (above = shown ∨ above = shown ++ ['\r']) ∧
          (⟨cut.position.line - 1, cut.position.column⟩ : Position).ShownIn shown cut.snippet))) := by
  obtain ⟨problem, cut, found, rfl, hat, hfound⟩ := exists_cut_of_error h
  have htext := hat.toList_eq
  refine ⟨problem, cut, found, rfl, hat, fun hinside => ⟨cut.sourceLine, ?_, ?_, fun hnil => ?_⟩⟩
  · rw [htext]
    exact cut.getElem?_splitOn
  · exact Cut.shownIn_of_sourceLine_ne_nil hinside
  · have hline := Cut.sourceLine_eq hinside
    rw [hnil, eq_comm, List.append_eq_nil_iff, List.append_eq_nil_iff] at hline
    obtain rfl := hfound hline.2.1
    refine ⟨rfl, (Cut.shownIn_of_sourceLine_eq_nil hinside hnil).imp (fun hbefore => ?_) ?_⟩
    · obtain rfl : cut = ⟨text.toList, [], []⟩ := hat
      exact String.toList_inj.1 hbefore
    · rw [← htext]
      exact id

/-- A closing brace where a name should be, on the last line. -/
theorem error_shownIn_brace :
    (∃ target ∈ Target.parsable, target.parse "\x7b\n  field(\n\x7d" = .error (.ofCut
      (.unexpected (some (.punct .braceClose)) (.kind (.argument .general)) (some .name))
        ⟨"\x7b\n  field(\n".toList, ['}'], []⟩)) ∧
    ∃ problem cut found, Diagnostic.ofCut
        (.unexpected (some (.punct .braceClose)) (.kind (.argument .general)) (some .name))
        ⟨"\x7b\n  field(\n".toList, ['}'], []⟩ = .ofCut problem cut ∧ cut.IsAt "\x7b\n  field(\n\x7d" found ∧
      ('\n' ∉ cut.inside → ∃ line,
        ("\x7b\n  field(\n\x7d".toList.splitOn '\n')[cut.position.line - 1]? = some line ∧
        (line ≠ [] → cut.position.ShownIn line cut.snippet) ∧
        (line = [] → found = none ∧ ("\x7b\n  field(\n\x7d" = "" ∨ ∃ above shown,
          ("\x7b\n  field(\n\x7d".toList.splitOn '\n')[cut.position.line - 2]? = some above ∧
          (above = shown ∨ above = shown ++ ['\r']) ∧
          (⟨cut.position.line - 1, cut.position.column⟩ : Position).ShownIn shown cut.snippet))) := by
  have hparse : ∃ target ∈ Target.parsable, target.parse "\x7b\n  field(\n\x7d" = .error (.ofCut
      (.unexpected (some (.punct .braceClose)) (.kind (.argument .general)) (some .name))
        ⟨"\x7b\n  field(\n".toList, ['}'], []⟩) :=
    ⟨.document, Target.document_mem_parsable, by decide +kernel⟩
  exact ⟨hparse, error_shownIn (.inl hparse)⟩

private theorem mem_intercalate {α : Type} {sep list : List α} {lists : List (List α)}
    (hlist : list ∈ lists) {a : α} (ha : a ∈ list) : a ∈ sep.intercalate lists := by
  induction lists with
  | nil => cases hlist
  | cons first lists ih =>
    cases lists with
    | nil =>
      rw [List.intercalate_singleton, ← List.mem_singleton.1 hlist]
      exact ha
    | cons second lists =>
      rw [List.intercalate_cons_cons, List.append_assoc, List.mem_append, List.mem_append]
      rcases List.mem_cons.1 hlist with rfl | hlist
      · exact .inl ha
      · exact .inr (.inr (ih hlist))

/-- The end of a text that ends with a line feed is on a line that the snippet doesn't show: the carets are
below the line before, which has another number. -/
theorem parseDocument_emptyLine :
    ∃ diagnostic snippet, parseDocument "# c\n" = .error diagnostic ∧
      diagnostic.position = some ⟨2, 1⟩ ∧ diagnostic.snippet = some (String.ofList snippet) ∧
      snippet = " 1 | # c\n   | ^".toList ∧ ∀ line, ¬(⟨2, 1⟩ : Position).ShownIn line snippet := by
  refine ⟨.ofCut (.unexpected none (.kind .document) (some .definition)) ⟨"# c\n".toList, [], []⟩,
    " 1 | # c\n   | ^".toList, by decide +kernel, rfl, rfl, rfl, ?_⟩
  rintro line ⟨earlier, carets, -, hsnippet⟩
  -- The number of the line is nowhere in the snippet.
  have hmem : '2' ∈ " 1 | # c\n   | ^".toList := by
    have hnumber : '2' ∈ ' ' :: Nat.toDigits 10 2 ++ [' ', '|', ' '] ++ line := by
      have hdigits : Nat.toDigits 10 2 = ['2'] := rfl
      simp [hdigits]
    rw [hsnippet]
    exact mem_intercalate (List.mem_append_right _ List.mem_cons_self) hnumber
  revert hmem
  decide

end GraphQLTree
