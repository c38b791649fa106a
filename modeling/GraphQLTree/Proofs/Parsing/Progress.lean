import GraphQLTree.Proofs.Grammar.Lookahead
import GraphQLTree.Proofs.Grammar.Session
import GraphQLTree.Proofs.Parsing.Lexical

/-!
# Parsing goes forward

A session that parses a text comes to the outcome of reading its lexemes, and a document takes the end of
the text behind them (`Session.read_closes`). So it ends: it doesn't run out of depth, and more depth than
enough changes nothing. Since a goal takes a lexeme if it comes to a node (`Goal.progresses_of_isReadable`),
each turn of a loop brings the end of the text nearer, and there the next item fails
(`Target.parseIn_progresses`).
-/

namespace GraphQLTree

open TokenStream (Head)

/-! ### Documents -/

/-- Reads the definitions of a document. -/
def readDefinitions (lexemes : List Lexeme) : Outcome (List Node) :=
  readUntil (Goal.definition.read (Goal.depthFor lexemes)) List.isEmpty (Goal.depthFor lexemes) lexemes

/-- A document is one definition at least, and what is in front of the end of the text. -/
theorem TokenStream.readDocument_eq (stream : TokenStream) :
    stream.readDocument = (readDefinitions stream.lexemes).andThen fun definitions rest =>
      if definitions.isEmpty then .failed ⟨.kind .document, some .definition⟩ rest
      else .done (.mk .document (.size stream.size)
        (definitions.map (.definitions, ·) ++ Node.ofComments .comments stream.trailing)) rest :=
  rfl

theorem readDefinitions_ends (lexemes : List Lexeme) : (readDefinitions lexemes).Ends := by
  intro h
  have hends := TokenStream.readDocument_ends ⟨lexemes, [], 0⟩
  rw [TokenStream.readDocument_eq, h] at hends
  exact hends rfl

/-! ### Sessions -/

theorem Cursor.size_stream (cursor : Cursor) : cursor.stream.size = cursor.size := by
  unfold stream
  split
  split <;> rfl

namespace Session

variable {session session' : Session} {taken : List Lexeme} {waits waits' : Bool}

/-- What has been taken on the way to another session are valid tokens if they are between its lexemes. -/
theorem Moves.valid (h : Moves session session' taken waits waits')
    (hbetween : Between session.lexemes session'.lexemes fun tokens => ∀ token ∈ tokens, token ≠ .invalid) :
    ∀ lexeme ∈ taken, lexeme.token ≠ .invalid := by
  obtain ⟨taken', heq, hvalid⟩ := hbetween
  obtain rfl : taken = taken' := List.append_cancel_right (h.lexemes_eq.symm.trans heq)
  exact fun lexeme hlexeme => hvalid _ (List.mem_map_of_mem hlexeme)

/-- Behind each turn of a loop a lexeme is taken, unless the turn is the last event. -/
theorem Moves.behind_turn (h : Moves session session' taken waits waits') (hstart : session.events = [])
    {before after : List Event} (hevents : session'.events = before ++ .turn :: after) :
    (∃ lexeme later, after = .take (.lexeme lexeme) :: later) ∨ after = [] ∧ waits' = true := by
  obtain ⟨events, heq, htaken, hpaced⟩ := h.events
  rw [hstart, List.nil_append, hevents] at heq
  subst heq
  rcases hpaced.behind_turn with ⟨head, later, rfl⟩ | hlast
  · have hmem : head ∈ taken.map Head.lexeme := by
      rw [← htaken]
      exact List.mem_filterMap.2 ⟨.take head, by simp, rfl⟩
    obtain ⟨lexeme, -, rfl⟩ := List.mem_map.1 hmem
    exact .inl ⟨lexeme, later, rfl⟩
  · exact .inr hlast

/-- How a session comes to an end with an outcome of reading a target. Only a document takes the end of the
text, behind everything else. -/
inductive Closes (session : Session) : Target → Outcome Node → Except Stop Node × Session → Prop where
  | failed {target : Target} {failure : Failure} {session' : Session} {taken : List Lexeme}
      (h : Moves session session' taken false true) :
      Closes session target (.failed failure session'.lexemes) (.error (.failed failure), session')
  | goal {goal : Goal} {node : Node} {session' : Session} {taken : List Lexeme}
      (h : Moves session session' taken false false) :
      Closes session (.goal goal) (.done node session'.lexemes) (.ok node, session')
  | document {node : Node} {session' : Session} {cursor : Cursor}
      (h : Moves session session' session.lexemes false false) :
      Closes session .document (.done node []) (.ok node, ⟨cursor, session'.events ++
        [.take (.finish session.cursor.stream.size session.cursor.stream.trailing)]⟩)

/-- The end of the text is taken where nothing else is left. -/
theorem exists_takeComments (hsound : session.cursor.Sound) (h : session.lexemes = []) :
    ∃ cursor : Cursor, cursor.size = session.cursor.stream.size ∧
      perform takeComments session = (.ok session.cursor.stream.trailing, ⟨cursor, session.events ++
        [.take (.finish session.cursor.stream.size session.cursor.stream.trailing)]⟩) := by
  have htake : session.cursor.stream.take = (.finish session.cursor.stream.size
      session.cursor.stream.trailing, ⟨[], [], session.cursor.stream.size⟩) := by
    rw [TokenStream.take, show session.cursor.stream.lexemes = [] from h]
  obtain ⟨hhead, hstream⟩ := Prod.mk.inj (htake.symm.trans (Cursor.take_stream hsound).1)
  have hperform : perform take session = (.ok session.cursor.take.1,
      ⟨session.cursor.take.2, session.events ++ [.take session.cursor.take.1]⟩) := rfl
  refine ⟨session.cursor.take.2, ?_, ?_⟩
  · rw [← Cursor.size_stream, ← hstream]
  · rw [takeComments, perform_bind, hperform, ← hhead]
    rfl

/-- Definitions are read in a session. More depth than enough makes no difference. -/
theorem readDefinitions_gives {lexemes : List Lexeme} {depth : Nat}
    (hdepth : Goal.depthFor lexemes ≤ depth) :
    Gives lexemes false false (readList (readGoal depth .definition) (·.lexeme?.isNone) depth)
      (readDefinitions lexemes) := by
  have hreadable : Goal.definition.isReadable = true := by decide
  have hhalt (head : Head) (lexemes : List Lexeme) (hhead : head.lexeme? = lexemes.head?) :
      head.lexeme?.isNone = lexemes.isEmpty := by
    rw [hhead]
    cases lexemes <;> rfl
  have hstop {l l' : List Lexeme} (h : firstToken l' = firstToken l) : l'.isEmpty = l.isEmpty := by
    rcases eq_nil_or_cons_of_firstToken h with ⟨rfl, rfl⟩ | ⟨_, _, _, _, rfl, rfl, -⟩ <;> rfl
  have hagree := readUntil_agree (Goal.read_agree hdepth .definition) hstop hdepth
  have hsame := hagree.eq_of_ne_exhausted (readDefinitions_ends lexemes)
  rw [readDefinitions, ← hsame]
  exact readList_gives (fun lexemes => readGoal_gives hreadable depth lexemes) depth lexemes hhalt

/-- The definitions of a document are read up to the end of the text, which is then taken. -/
theorem readDocument_closes {depth : Nat} (hsound : session.cursor.Sound)
    (hdepth : Goal.depthFor session.lexemes ≤ depth) :
    Closes session .document session.cursor.stream.readDocument (perform (readDocument depth) session) := by
  have hanswers := readDefinitions_gives hdepth session hsound rfl
  have hends := readDefinitions_ends session.lexemes
  have hrest {definitions : List Node} {rest : List Lexeme}
      (h : readDefinitions session.lexemes = .done definitions rest) : rest = [] :=
    (readDefinitions_sound h).1
  rw [readDocument, perform_bind, TokenStream.readDocument_eq]
  change Closes session .document ((readDefinitions session.lexemes).andThen _) _
  generalize perform (readList _ _ depth) session = run at hanswers ⊢
  generalize readDefinitions session.lexemes = outcome at hanswers hends hrest ⊢
  cases hanswers with
  | exhausted => exact absurd rfl hends
  | failed h => exact .failed h
  | @done definitions session' taken h =>
    simp only [Outcome.andThen]
    split
    · exact .failed (h.mono (Bool.le_refl false) (Bool.false_le true))
    · have hnone : session'.lexemes = [] := hrest rfl
      have htaken : taken = session.lexemes := by rw [h.lexemes_eq, hnone, List.append_nil]
      have hsize : session.cursor.stream.size = session'.cursor.stream.size := by rw [h.stream]
      have htrailing : session.cursor.stream.trailing = session'.cursor.stream.trailing := by rw [h.stream]
      obtain ⟨cursor, hcursor, htake⟩ := exists_takeComments h.sound hnone
      rw [perform_bind, htake, ← hsize, ← htrailing, hnone]
      change Closes session .document _ (.ok (.mk .document (.size cursor.size) _), _)
      rw [hcursor, ← hsize]
      exact .document (htaken ▸ h)

/-- Reading a target in a session comes to the outcome of reading it from the stream. -/
theorem read_closes {target : Target} (htarget : target ∈ Target.parsable) {depth : Nat}
    (hsound : session.cursor.Sound) (hdepth : Goal.depthFor session.lexemes ≤ depth) :
    Closes session target (session.cursor.stream.read target) (perform (read depth target) session) := by
  cases target with
  | document => exact readDocument_closes hsound hdepth
  | goal goal =>
    have hgoal := Target.isReadable_of_parsable htarget
    have hends := Goal.read_ends_of_depthFor hgoal session.lexemes
    have hanswers := (readGoal_gives hgoal depth session.lexemes).mono (Bool.false_le true)
      (Bool.le_refl false) session hsound rfl
    rw [(Goal.read_agree hdepth goal).eq_of_ne_exhausted hends] at hanswers
    rw [TokenStream.read, TokenStream.readGoal]
    change Closes session (.goal goal) (goal.read (Goal.depthFor session.lexemes) session.lexemes)
      (perform (readGoal depth goal) session)
    generalize perform (readGoal depth goal) session = run at hanswers ⊢
    generalize goal.read (Goal.depthFor session.lexemes) session.lexemes = outcome at hanswers hends ⊢
    cases hanswers with
    | done h => exact .goal h
    | failed h => exact .failed h
    | exhausted => exact absurd rfl hends

end Session

/-! ### Goals and targets -/

/-- Whether reading a goal goes forward, whatever has been read before: it doesn't run out of depth that is
enough, it takes valid lexemes only, and one of them at least if it comes to a node. -/
def Goal.Progresses (goal : Goal) : Prop :=
  ∀ (depth : Nat) (session : Session), session.cursor.Sound →
    ∃ result session', Session.perform (Session.readGoal depth goal) session = (result, session') ∧
      (depthFor session.lexemes ≤ depth → result ≠ .error .exhausted) ∧
      (result ≠ .error .exhausted → ∃ taken : List Lexeme,
        session'.taken = session.taken ++ taken.map .lexeme ∧
        (∀ lexeme ∈ taken, lexeme.token ≠ .invalid) ∧ ((∃ node, result = .ok node) → taken ≠ []))

theorem Goal.progresses_of_isReadable {goal : Goal} (hgoal : goal.isReadable = true) :
    goal.Progresses := by
  intro depth session hsound
  have hanswers := Session.readGoal_gives hgoal depth session.lexemes session hsound rfl
  have hpasses := goal.read_passes (P := (· ≠ .invalid)) (fun _ h => h) depth session.lexemes
  have hends (hdepth : depthFor session.lexemes ≤ depth) : (goal.read depth session.lexemes).Ends := by
    have hheight := goal.height_le
    unfold depthFor at hdepth
    exact read_ends hgoal (by omega)
  have hlength (node : Node) (rest : List Lexeme) (h : goal.read depth session.lexemes = .done node rest) :
      rest.length < session.lexemes.length :=
    (read_sound depth).length_lt hgoal h
  generalize Session.perform (Session.readGoal depth goal) session = run at hanswers ⊢
  generalize goal.read depth session.lexemes = outcome at hanswers hpasses hends hlength
  cases hanswers with
  | @done node session' taken h =>
    refine ⟨.ok node, session', rfl, fun _ => nofun, fun _ => ⟨taken, h.taken_eq, h.valid hpasses, ?_⟩⟩
    rintro - rfl
    have hlt := hlength node session'.lexemes rfl
    rw [h.lexemes_eq] at hlt
    exact Nat.lt_irrefl _ hlt
  | @failed failure session' taken h =>
    exact ⟨.error (.failed failure), session', rfl, fun _ => nofun,
      fun _ => ⟨taken, h.taken_eq, h.valid hpasses, nofun⟩⟩
  | @exhausted session' =>
    exact ⟨.error .exhausted, session', rfl, fun hdepth => absurd rfl (hends hdepth),
      fun hne => absurd rfl hne⟩

/-- A diagnostic is at the next lexeme, or at the end of the text. -/
theorem Failure.diagnostic_head (failure : Failure) (cs : List Char) (lexemes : List Lexeme) :
    failure.diagnostic cs lexemes.head?.toList = failure.diagnostic cs lexemes := by
  cases lexemes <;> rfl

theorem Failure.diagnostic_ne_placeless (failure : Failure) (cs : List Char) (lexemes : List Lexeme)
    (problem : Problem) : failure.diagnostic cs lexemes ≠ .placeless problem := by
  unfold diagnostic
  split
  · nofun
  · split <;> nofun

/-- Parsing a text in a session with depth enough gives what parsing the text does, which is a node or a
diagnostic and never that the text is too deep. The lexemes that are taken are valid, and each is taken once
in the order of the text. Only a document takes the end of the text, behind all lexemes and if it comes to a
node. Behind each turn of a loop a lexeme is taken at once, or else the turn is the last thing that happens
and parsing fails. Every goal that can be read goes forward wherever it is read. -/
theorem Target.parseIn_progresses {target : Target} (htarget : target ∈ parsable) (text : String)
    {depth : Nat} (hdepth : Goal.depthFor (TokenStream.ofText text).lexemes ≤ depth) :
    (∃ (session : Session) (taken rest : List Lexeme),
      target.parseIn depth text = (target.parse text, session) ∧
      target.parse text ≠ .error (.placeless .tooDeep) ∧
      (TokenStream.ofText text).lexemes = taken ++ rest ∧
      (∀ lexeme ∈ taken, lexeme.token ≠ .invalid) ∧
      (session.taken = taken.map .lexeme ∧
          (target = .document → ∃ diagnostic, target.parse text = .error diagnostic) ∨
        session.taken = taken.map .lexeme ++
            [.finish (TokenStream.ofText text).size (TokenStream.ofText text).trailing] ∧
          target = .document ∧ rest = [] ∧ ∃ node, target.parse text = .ok node) ∧
      ∀ before after, session.events = before ++ .turn :: after →
        (∃ lexeme later, after = .take (.lexeme lexeme) :: later) ∨
        after = [] ∧ ∃ diagnostic, target.parse text = .error diagnostic) ∧
    ∀ goal : Goal, goal.isReadable = true → goal.Progresses := by
  refine ⟨?_, fun goal hgoal => Goal.progresses_of_isReadable hgoal⟩
  have hcloses : Session.Closes (.ofText text) target ((TokenStream.ofText text).read target)
      (Session.perform (Session.read depth target) (.ofText text)) :=
    Session.read_closes htarget (Cursor.sound_ofText text) hdepth
  have hpasses := (TokenStream.ofText text).read_passes (P := (· ≠ .invalid)) (fun _ h => h) target
  rw [parseIn, parse]
  generalize Session.perform (Session.read depth target) (.ofText text) = run at hcloses ⊢
  generalize (TokenStream.ofText text).read target = outcome at hcloses hpasses ⊢
  cases hcloses with
  | @failed _ failure session' taken h =>
    refine ⟨session', taken, session'.lexemes, ?_, ?_, h.lexemes_eq, h.valid hpasses,
      .inl ⟨h.taken_eq, fun _ => ⟨_, rfl⟩⟩, fun before after hevents => ?_⟩
    · have hhead : session'.cursor.peek.1.lexeme? = session'.lexemes.head? := Cursor.lexeme?_peek h.sound
      simp only [hhead, failure.diagnostic_head]
    · exact fun heq => failure.diagnostic_ne_placeless _ _ _ (Except.error.inj heq)
    · exact (h.behind_turn rfl hevents).imp_right fun ⟨hafter, _⟩ => ⟨hafter, _, rfl⟩
  | @goal goal node session' taken h =>
    refine ⟨session', taken, session'.lexemes, rfl, nofun, h.lexemes_eq, h.valid hpasses,
      .inl ⟨h.taken_eq, nofun⟩, fun before after hevents => ?_⟩
    exact (h.behind_turn rfl hevents).imp_right fun ⟨_, hfalse⟩ => nomatch hfalse
  | @document node session' cursor h =>
    have hnone : session'.lexemes = [] := by simpa using h.lexemes_eq
    refine ⟨_, (TokenStream.ofText text).lexemes, [], rfl, nofun, (List.append_nil _).symm,
      h.valid (hnone ▸ hpasses), .inr ⟨?_, rfl, rfl, node, rfl⟩, fun before after hevents => .inl ?_⟩
    · rw [Session.taken, List.filterMap_append]
      exact congrArg (· ++ _) h.taken_eq
    · -- The end of the text is taken behind the last event of the definitions.
      rcases List.eq_nil_or_concat after with rfl | ⟨init, last, rfl⟩
      · cases (List.append_inj' hevents rfl).2
      · rw [List.concat_eq_append, ← List.cons_append, ← List.append_assoc] at hevents
        rcases h.behind_turn rfl (List.append_inj' hevents rfl).1 with
          ⟨lexeme, later, rfl⟩ | ⟨-, hfalse⟩
        · exact ⟨lexeme, later.concat last, rfl⟩
        · cases hfalse

/-- A document of one field. -/
theorem Target.parseIn_progresses_field :
    (.document ∈ parsable ∧ Goal.depthFor (TokenStream.ofText "\x7ba\x7d").lexemes ≤ 16) ∧
    (∃ (session : Session) (taken rest : List Lexeme),
      Target.document.parseIn 16 "\x7ba\x7d" = (Target.document.parse "\x7ba\x7d", session) ∧
      Target.document.parse "\x7ba\x7d" ≠ .error (.placeless .tooDeep) ∧
      (TokenStream.ofText "\x7ba\x7d").lexemes = taken ++ rest ∧
      (∀ lexeme ∈ taken, lexeme.token ≠ .invalid) ∧
      (session.taken = taken.map .lexeme ∧
          (Target.document = .document →
            ∃ diagnostic, Target.document.parse "\x7ba\x7d" = .error diagnostic) ∨
        session.taken = taken.map .lexeme ++
            [.finish (TokenStream.ofText "\x7ba\x7d").size (TokenStream.ofText "\x7ba\x7d").trailing] ∧
          Target.document = .document ∧ rest = [] ∧
          ∃ node, Target.document.parse "\x7ba\x7d" = .ok node) ∧
      ∀ before after, session.events = before ++ .turn :: after →
        (∃ lexeme later, after = .take (.lexeme lexeme) :: later) ∨
        after = [] ∧ ∃ diagnostic, Target.document.parse "\x7ba\x7d" = .error diagnostic) ∧
    ∀ goal : Goal, goal.isReadable = true → goal.Progresses :=
  have hdepth : Goal.depthFor (TokenStream.ofText "\x7ba\x7d").lexemes ≤ 16 := by decide +kernel
  ⟨⟨document_mem_parsable, hdepth⟩, parseIn_progresses document_mem_parsable "\x7ba\x7d" hdepth⟩

/-- The second turn of an open list finds the end of the text, which isn't taken. -/
example : ((Target.goal (.value .general)).parseIn 16 "[1").2.events.map (·.head?.isSome) =
    [true, false, true, false] := by decide +kernel

end GraphQLTree
