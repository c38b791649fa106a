import GraphQLTree.Diagnostic.Tokens
import GraphQLTree.Proofs.Token.Quoted
import GraphQLTree.Proofs.Token.Tiles

/-!
# Lexers scan

A call of a lexer reads the first scrap of what is left of the text (`Lexer.next?_around`), and its window
is on the characters of that scrap afterwards, also where a callback has moved it. So any number of calls
reads the scraps of a text, and then the end (`Lexer.answers?_ofList`).
-/

namespace GraphQLTree

open Text (HexReader Window)

namespace Lexer

variable (hex : HexReader) (before inside : List Char)

theorem token?_nil : token? hex (.around before inside []) =
    some (none, .around (before ++ inside) [] []) := by
  have hnext := Window.next_around before inside [] []
  rw [List.append_nil, Text.utf8Length_nil] at hnext
  simp [token?, hnext]

/-- A call reads what is scanned at the start of the remainder. -/
theorem token?_cons (c : Char) (cs : List Char) : token? hex (.around before inside (c :: cs)) =
    some (some (Token.scan c cs).1, .around (before ++ inside) ((c :: cs).take (Token.scan c cs).2)
      ((c :: cs).drop (Token.scan c cs).2)) := by
  rw [token?, Window.remainder?_around, Option.bind_eq_bind, Option.bind_some]
  split
  · next heq => cases heq
  · next tail heq =>
    obtain ⟨rfl, rfl⟩ := List.cons.inj heq
    have hnext := Window.next_around before inside tail Text.blockQuotes
    have hsize : Text.utf8Length Text.blockQuotes = 3 := by decide
    have hquotes : Text.blockQuotes ++ tail = '"' :: '"' :: '"' :: tail := rfl
    rw [hsize, hquotes] at hnext
    rw [hnext, Text.readBlockString?_around, Token.scan_quote, Token.scanString]
    cases Text.readBlock tail <;> rfl
  · next tail hblock heq =>
    obtain ⟨rfl, rfl⟩ := List.cons.inj heq
    have hnext := Window.next_around before inside cs ['"']
    have hsize : Text.utf8Length ['"'] = 1 := by decide
    have hquote : ['"'] ++ cs = '"' :: cs := rfl
    rw [hsize, hquote] at hnext
    have hnot : ¬['"', '"'] <+: cs := by
      rintro ⟨rest, rfl⟩
      exact hblock rest rfl
    rw [hnext, Text.readString?_around, Token.scan_quote_of_not_block hnot]
    cases Text.readQuoted cs with
    | some read => rfl
    | none =>
      obtain ⟨n, hn⟩ := Nat.exists_eq_succ_of_ne_zero (Nat.ne_of_gt (Text.brokenLength_pos cs))
      simp only [hn]
      rfl
  · next d tail hblock hquote heq =>
    obtain ⟨rfl, rfl⟩ := List.cons.inj heq
    simp only [Window.next_take]
    rfl

/-- A call reads the first scrap of the remainder. -/
theorem next?_around (cs : List Char) : next? hex (.around before inside cs) =
    some (match Scrap.next? cs with
      | some (scrap, rest) => (some scrap.token, .around (before ++ inside ++ scrap.gap) scrap.text rest)
      | none => (none, .around (before ++ inside ++ cs) [] [])) := by
  have hcs := List.takeWhile_append_dropWhile (p := Token.isIgnored) (l := cs)
  have hgap := Window.next_around before inside (cs.dropWhile Token.isIgnored)
    (cs.takeWhile Token.isIgnored)
  rw [hcs] at hgap
  rw [next?, Window.remainder?_around, Option.bind_eq_bind, Option.bind_some, hgap]
  cases hrest : cs.dropWhile Token.isIgnored with
  | nil =>
    have hnone : Scrap.next? cs = none := by rw [Scrap.next?, hrest]
    rw [hrest, List.append_nil] at hcs
    rw [token?_nil, hnone, hcs]
  | cons c tail => rw [token?_cons, Scrap.next?_of_dropWhile hrest]

/-! ### Any number of calls -/

/-- What a number of calls reads of some things, of which each is read once, when something else is read at
their end. -/
def reads {α : Type} (n : Nat) (things : List α) (finish : α) : List α :=
  (things ++ List.replicate n finish).take n

theorem reads_nil {α : Type} (n : Nat) (finish : α) : reads n [] finish = List.replicate n finish := by
  rw [reads, List.nil_append, List.take_replicate, Nat.min_self]

theorem reads_cons {α : Type} (n : Nat) (thing : α) (things : List α) (finish : α) :
    reads (n + 1) (thing :: things) finish = thing :: reads n things finish := by
  rw [reads, List.cons_append, List.take_succ_cons, reads, List.take_append, List.take_append,
    List.take_replicate, List.take_replicate]
  congr 3
  omega

/-- Any number of calls reads the scraps of the remainder, and then the end. -/
theorem answers?_around (n : Nat) (cs : List Char) :
    answers? hex n (.around before inside cs) = some (reads n
      ((Scrap.locateFrom (Text.utf8Length (before ++ inside)) (Scrap.scanAll cs)).map
        fun located => (some located.1.token, located.2))
      (none, ⟨Text.utf8Length (before ++ (inside ++ cs)),
        Text.utf8Length (before ++ (inside ++ cs))⟩)) := by
  induction n generalizing before inside cs with
  | zero => rfl
  | succ n ih =>
    rw [answers?, next?_around, Option.bind_eq_bind, Option.bind_some]
    cases hnext : Scrap.next? cs with
    | none =>
      have hend : Scrap.scanAll [] = [] := rfl
      dsimp only
      rw [ih, Scrap.scanAll_of_none hnext, hend]
      simp [Scrap.locateFrom, reads_nil, List.replicate_succ, Window.around]
    | some next =>
      obtain ⟨scrap, rest⟩ := next
      obtain ⟨rfl, -, -⟩ := Scrap.eq_of_next? hnext
      dsimp only
      rw [ih, Scrap.scanAll_of_some hnext, Scrap.locateFrom, List.map_cons, reads_cons,
        Scrap.span_utf8Length]
      simp [Window.around, Text.utf8Length_append, Nat.add_assoc]

/-- Any number of calls reads the tokens of a text, and then its end. -/
theorem answers?_ofList (n : Nat) (cs : List Char) : answers? hex n (.ofList cs) = some (reads n
    ((Scrap.places cs).map fun place => (some place.1, place.2))
    (none, ⟨Text.utf8Length cs, Text.utf8Length cs⟩)) := by
  rw [Scrap.places, List.map_map]
  exact answers?_around hex [] [] n cs

end Lexer

/-! ### Up to an error -/

@[simp] theorem Cut.ofWindow?_around (before inside after : List Char) :
    Cut.ofWindow? (.around before inside after) = some ⟨before, inside, after⟩ := by
  have hbefore : Text.slice? 0 (Text.utf8Length before) (before ++ (inside ++ after)) = some before :=
    Text.slice?_eq_some_iff.2 ⟨[], inside ++ after, rfl, rfl, Nat.zero_add _⟩
  rw [ofWindow?, Window.slice?_around, Window.remainder?_around]
  simp only [Window.around, hbefore]
  rfl

/-- Some tokens, and the report of the error behind them if there is one. -/
def TokenReader.items (tokens : List Token × Option Diagnostic) : List (Except Diagnostic Token) :=
  tokens.1.map .ok ++ tokens.2.toList.map .error

namespace TokenReader

variable (hex : HexReader)

theorem answers?_finished (n : Nat) (window : Window) :
    answers? hex n ⟨window, true⟩ = some (List.replicate n none) := by
  induction n with
  | zero => rfl
  | succ n ih =>
    have hnext : next? hex ⟨window, true⟩ = some (none, ⟨window, true⟩) := rfl
    rw [answers?, hnext, Option.bind_eq_bind, Option.bind_some]
    dsimp only
    rw [ih]
    rfl

theorem next?_around_none {cs : List Char} (h : Scrap.next? cs = none) (before inside : List Char) :
    next? hex ⟨.around before inside cs, false⟩ =
      some (none, ⟨.around (before ++ inside ++ cs) [] [], true⟩) := by
  rw [next?, Lexer.next?_around, h]
  rfl

/-- A call reads the first scrap of the remainder, or reports it. -/
theorem next?_around_some {cs rest : List Char} {scrap : Scrap}
    (h : Scrap.next? cs = some (scrap, rest)) (before inside : List Char) :
    next? hex ⟨.around before inside cs, false⟩ = some (
      if scrap.token = .invalid then
        (some (.error (.invalidCharacters ⟨before ++ inside ++ scrap.gap, scrap.text, rest⟩)),
          ⟨.around (before ++ inside ++ scrap.gap) scrap.text rest, true⟩)
      else (some (.ok scrap.token),
        ⟨.around (before ++ inside ++ scrap.gap) scrap.text rest, false⟩)) := by
  rw [next?, Lexer.next?_around, h]
  obtain ⟨gap, token, text⟩ := scrap
  cases token with
  | invalid => simp
  | _ => rfl

/-- Any number of calls reads the tokens of the remainder up to the first error, and the error. -/
theorem answers?_around (n : Nat) (before inside cs : List Char) :
    answers? hex n ⟨.around before inside cs, false⟩ = some (Lexer.reads n
      ((items (validTokens (before ++ (inside ++ cs))
        (Scrap.locateFrom (Text.utf8Length (before ++ inside)) (Scrap.scanAll cs)))).map some) none) := by
  induction n generalizing before inside cs with
  | zero => rfl
  | succ n ih =>
    rw [answers?]
    cases hnext : Scrap.next? cs with
    | none =>
      rw [next?_around_none hex hnext, Option.bind_eq_bind, Option.bind_some]
      dsimp only
      rw [answers?_finished, Scrap.scanAll_of_none hnext]
      simp [Scrap.locateFrom, validTokens, items, Lexer.reads_nil, List.replicate_succ]
    | some next =>
      obtain ⟨scrap, rest⟩ := next
      obtain ⟨rfl, -, -⟩ := Scrap.eq_of_next? hnext
      rw [next?_around_some hex hnext, Option.bind_eq_bind, Option.bind_some,
        Scrap.scanAll_of_some hnext, Scrap.locateFrom, validTokens, Scrap.span_utf8Length]
      by_cases h : scrap.token = .invalid
      · rw [if_pos h, if_pos h]
        dsimp only
        have hcut := Cut.ofSpan_append (before ++ inside ++ scrap.gap) scrap.text rest
        rw [← Text.utf8Length_append] at hcut
        simp only [List.append_assoc] at hcut
        rw [answers?_finished]
        simp [items, Lexer.reads_cons, Lexer.reads_nil, hcut]
      · rw [if_neg h, if_neg h]
        dsimp only
        rw [ih]
        simp [items, Lexer.reads_cons]

theorem answers?_ofList (n : Nat) (cs : List Char) : answers? hex n (ofList cs) =
    some (Lexer.reads n ((items (tokenize (String.ofList cs))).map some) none) := by
  rw [tokenize, String.toList_ofList]
  exact answers?_around hex n [] [] cs

end TokenReader

/-- The valid tokens are those in front of the first that is invalid, which is reported. -/
theorem validTokens_eq_takeWhile (cs : List Char) (scraps : List (Scrap × Span)) :
    validTokens cs scraps =
      ((scraps.takeWhile fun scrap => scrap.1.token ≠ .invalid).map fun scrap => scrap.1.token,
        (scraps.find? fun scrap => scrap.1.token = .invalid).map fun scrap =>
          .invalidCharacters (.ofSpan cs scrap.2)) := by
  induction scraps with
  | nil => rfl
  | cons scrap scraps ih =>
    obtain ⟨scrap, span⟩ := scrap
    rw [validTokens]
    by_cases h : scrap.token = .invalid <;> simp [h, ih]

/-- The tokens that a lexer reads from a text, on behind errors, have characters, are cut where a text can
be cut and lie one behind the other; what they are is what is written there; and what is between them is
ignored. A reader reads the same tokens up to the first error, then the error, and then nothing. -/
theorem lexer_tiles (hex : HexReader) (text : List Char) :
    (∀ n, Lexer.answers? hex n (.ofList text) = some (Lexer.reads n
      ((Scrap.places text).map fun place => (some place.1, place.2))
      (none, ⟨Text.utf8Length text, Text.utf8Length text⟩))) ∧
    (∀ place ∈ Scrap.places text, place.2.start < place.2.stop ∧
      ∃ inside, Text.slice? place.2.start place.2.stop text = some inside ∧ place.1.Spells inside) ∧
    (Scrap.places text).Pairwise (fun a b => a.2.stop ≤ b.2.start) ∧
    (∀ before c after, text = before ++ c :: after →
      (∀ place ∈ Scrap.places text, ¬(place.2.start ≤ Text.utf8Length before ∧
        Text.utf8Length before < place.2.stop)) → c ∈ Token.ignored) ∧
    (∀ n, TokenReader.answers? hex n (.ofList text) =
      some (Lexer.reads n ((TokenReader.items (tokenize (String.ofList text))).map some) none)) ∧
    tokenize (String.ofList text) =
      (((Scrap.places text).takeWhile fun place => place.1 ≠ .invalid).map Prod.fst,
        ((Scrap.places text).find? fun place => place.1 = .invalid).map fun place =>
          .invalidCharacters (.ofSpan text place.2)) := by
  have htiles := Scrap.tiles_places text
  refine ⟨fun n => Lexer.answers?_ofList hex n text, fun place hplace => ?_, htiles.pairwise,
    fun before c after h hc => htiles.mem_ignored h hc, fun n => TokenReader.answers?_ofList hex n text,
    ?_⟩
  · exact ⟨(htiles.lt_of_mem place hplace).2, htiles.exists_slice? place hplace⟩
  · rw [tokenize, String.toList_ofList, validTokens_eq_takeWhile, Scrap.places, List.takeWhile_map,
      List.find?_map, List.map_map, Option.map_map]
    rfl

/-- A string that can't be read, behind a character that forms no token: reading goes on behind the quote
and the backslash, and what lies in no token is ignored there, too. -/
theorem lexer_tiles_broken :
    Lexer.answers? .unsigned 6 (.ofList "é\"\\u0\uFEFFz".toList) = some
        [(some .invalid, ⟨0, 2⟩), (some .invalid, ⟨2, 3⟩), (some .invalid, ⟨3, 4⟩),
          (some (.name "u0"), ⟨4, 6⟩), (some (.name "z"), ⟨9, 10⟩), (none, ⟨10, 10⟩)] ∧
      '\uFEFF' ∈ Token.ignored := by
  have hplaces : Scrap.places "é\"\\u0\uFEFFz".toList = [(.invalid, ⟨0, 2⟩), (.invalid, ⟨2, 3⟩),
      (.invalid, ⟨3, 4⟩), (.name "u0", ⟨4, 6⟩), (.name "z", ⟨9, 10⟩)] := by decide
  obtain ⟨hanswers, -, -, hignored, -⟩ := lexer_tiles .unsigned "é\"\\u0\uFEFFz".toList
  refine ⟨?_, hignored "é\"\\u0".toList '\uFEFF' ['z'] rfl ?_⟩
  · rw [hanswers, hplaces]
    rfl
  · rw [hplaces]
    decide

end GraphQLTree
