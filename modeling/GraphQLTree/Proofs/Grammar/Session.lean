import GraphQLTree.Grammar.Session
import GraphQLTree.Proofs.Grammar.Depth
import GraphQLTree.Proofs.Grammar.Rest
import GraphQLTree.Proofs.Token.Cursor
import Mathlib.Data.Bool.Basic

/-!
# Sessions read streams

What is done in a session **gives** an outcome if it comes to the same result as a reader of lexemes, and
has taken just the lexemes that the reader doesn't leave (`Session.Gives`). At the same time its events are
**paced**: something is taken directly behind each turn of a loop (`Session.Event.Paced`). Part by part a
session gives what the reader of the part does, and so for goals (`Session.readGoal_gives`): each production
takes something before it comes to a loop of its own, so that a turn that waits for a lexeme gets it from
the next item of the list, or from what closes the list.
-/

namespace GraphQLTree

open TokenStream (Head)

/-- What a cursor shows is the first lexeme of its stream. -/
theorem Cursor.lexeme?_peek {cursor : Cursor} (hsound : cursor.Sound) :
    cursor.peek.1.lexeme? = cursor.stream.lexemes.head? := by
  rw [(peek_stream hsound).1, TokenStream.peek]
  cases cursor.stream.lexemes <;> rfl

namespace Session

/-! ### Events -/

namespace Event

/-- What is taken. -/
def head? : Event → Option Head
  | turn => none
  | take head => some head

/-- Whether something is taken directly behind each turn. A turn may be waiting for that in front of the
events or behind them. -/
def Paced : Bool → List Event → Bool → Prop
  | waits, [], waits' => waits ≤ waits'
  | waits, .turn :: events, waits' => waits = false ∧ Paced true events waits'
  | _, .take _ :: events, waits' => Paced false events waits'

variable {waits waits' early later : Bool} {events events' : List Event}

theorem Paced.mono (h : Paced waits events waits') (hearly : early ≤ waits) (hlater : waits' ≤ later) :
    Paced early events later := by
  induction events generalizing waits early with
  | nil => exact Bool.le_trans hearly (Bool.le_trans h hlater)
  | cons event events ih =>
    cases event with
    | turn =>
      obtain ⟨rfl, h⟩ := h
      exact ⟨Bool.eq_false_of_le_false hearly, ih h (Bool.le_refl true)⟩
    | take head =>
      have htail : Paced false events waits' := h
      exact ih htail (Bool.le_refl false)

theorem Paced.append (h : Paced waits events waits') (h' : Paced waits' events' later) :
    Paced waits (events ++ events') later := by
  induction events generalizing waits with
  | nil => exact h'.mono h (Bool.le_refl later)
  | cons event events ih =>
    cases event with
    | turn => exact ⟨h.1, ih h.2⟩
    | take head =>
      have htail : Paced false events waits' := h
      exact ih htail

/-- A turn is the last of some events, or else something is taken behind it. -/
theorem Paced.behind_turn {before : List Event} (h : Paced waits (before ++ .turn :: events) waits') :
    (∃ head after, events = .take head :: after) ∨ events = [] ∧ waits' = true := by
  induction before generalizing waits with
  | nil =>
    cases events with
    | nil => exact .inr ⟨rfl, Bool.eq_true_of_true_le h.2⟩
    | cons event events =>
      cases event with
      | turn => cases h.2.1
      | take head => exact .inl ⟨head, events, rfl⟩
  | cons event before ih =>
    cases event with
    | turn => exact ih h.2
    | take head =>
      have htail : Paced false (before ++ .turn :: events) waits' := h
      exact ih htail

end Event

/-! ### Sessions -/

/-- The lexemes that are left. -/
def lexemes (session : Session) : List Lexeme :=
  session.cursor.stream.lexemes

/-- What has been taken, the end of the text included. -/
def taken (session : Session) : List Head :=
  session.events.filterMap Event.head?

/-- Whether a session comes from another one by taking some lexemes. A turn may be waiting before that or
after. -/
structure Moves (session session' : Session) (taken : List Lexeme) (waits waits' : Bool) : Prop where
  sound : session'.cursor.Sound
  stream : session.cursor.stream = { session'.cursor.stream with lexemes := taken ++ session'.lexemes }
  events : ∃ events, session'.events = session.events ++ events ∧
    events.filterMap Event.head? = taken.map .lexeme ∧ Event.Paced waits events waits'

namespace Moves

variable {session session' session'' : Session} {taken taken' : List Lexeme}
  {waits waits' early later : Bool}

theorem trans (h : Moves session session' taken waits waits')
    (h' : Moves session' session'' taken' waits' later) :
    Moves session session'' (taken ++ taken') waits later where
  sound := h'.sound
  stream := by
    have hlexemes : session'.lexemes = taken' ++ session''.lexemes := congrArg TokenStream.lexemes h'.stream
    rw [h.stream, hlexemes, h'.stream, List.append_assoc]
  events := by
    obtain ⟨events, heq, htaken, hpaced⟩ := h.events
    obtain ⟨events', heq', htaken', hpaced'⟩ := h'.events
    refine ⟨events ++ events', by rw [heq', heq, List.append_assoc], ?_, hpaced.append hpaced'⟩
    rw [List.filterMap_append, htaken, htaken', List.map_append]

theorem lexemes_eq (h : Moves session session' taken waits waits') :
    session.lexemes = taken ++ session'.lexemes :=
  congrArg TokenStream.lexemes h.stream

theorem taken_eq (h : Moves session session' taken waits waits') :
    session'.taken = session.taken ++ taken.map .lexeme := by
  obtain ⟨events, heq, htaken, -⟩ := h.events
  rw [Session.taken, heq, List.filterMap_append, htaken]
  rfl

theorem mono (h : Moves session session' taken waits waits') (hearly : early ≤ waits)
    (hlater : waits' ≤ later) : Moves session session' taken early later where
  sound := h.sound
  stream := h.stream
  events := by
    obtain ⟨events, heq, htaken, hpaced⟩ := h.events
    exact ⟨events, heq, htaken, hpaced.mono hearly hlater⟩

end Moves

/-! ### Actions -/

section Perform

variable {α β : Type}

theorem perform_bind (action : Action α) (next : α → Action β) (session : Session) :
    perform (action >>= next) session =
      match perform action session with
      | (.ok result, session') => perform (next result) session'
      | (.error stop, session') => (.error stop, session') := by
  change (match action.run.run session with
    | (result, session') => (ExceptT.bindCont next result).run session') = _
  rw [perform]
  generalize action.run.run session = run
  obtain ⟨_ | _, _⟩ := run <;> rfl

/-- How a session goes on with an outcome of reading lexemes. -/
inductive Answers (session : Session) (waits waits' : Bool) :
    Outcome α → Except Stop α × Session → Prop where
  | done {result : α} {session' : Session} {taken : List Lexeme}
      (h : Moves session session' taken waits waits') :
      Answers session waits waits' (.done result session'.lexemes) (.ok result, session')
  | failed {failure : Failure} {session' : Session} {taken : List Lexeme}
      (h : Moves session session' taken waits true) :
      Answers session waits waits' (.failed failure session'.lexemes) (.error (.failed failure), session')
  | exhausted {session' : Session} :
      Answers session waits waits' .exhausted (.error .exhausted, session')

/-- Whether an action gives an outcome in front of some lexemes, whatever session they are left in. -/
def Gives (lexemes : List Lexeme) (waits waits' : Bool) (action : Action α) (outcome : Outcome α) : Prop :=
  ∀ session : Session, session.cursor.Sound → session.lexemes = lexemes →
    Answers session waits waits' outcome (perform action session)

variable {session session' : Session} {lexemes rest : List Lexeme} {waits waits' early later : Bool}
  {action : Action α} {outcome : Outcome α}

theorem Answers.behind {taken : List Lexeme} {run : Except Stop α × Session}
    (h : Answers session' waits' later outcome run) (hmoves : Moves session session' taken waits waits') :
    Answers session waits later outcome run := by
  cases h with
  | done h => exact .done (hmoves.trans h)
  | failed h => exact .failed (hmoves.trans h)
  | exhausted => exact .exhausted

theorem Gives.mono (hgives : Gives lexemes waits waits' action outcome) (hearly : early ≤ waits)
    (hlater : waits' ≤ later) : Gives lexemes early later action outcome := by
  intro session hsound hlexemes
  have hanswers := hgives session hsound hlexemes
  generalize perform action session = run at hanswers ⊢
  cases hanswers with
  | done h => exact .done (h.mono hearly hlater)
  | failed h => exact .failed (h.mono hearly (Bool.le_refl true))
  | exhausted => exact .exhausted

/-- Nothing happens. -/
theorem Moves.refl (hsound : session.cursor.Sound) (waits : Bool) :
    Moves session session [] waits waits :=
  ⟨hsound, rfl, [], (List.append_nil _).symm, rfl, Bool.le_refl waits⟩

/-- What stands next is looked at. -/
theorem exists_peek (hsound : session.cursor.Sound) (waits : Bool) :
    ∃ head session', perform peek session = (.ok head, session') ∧
      head.lexeme? = session.lexemes.head? ∧ Moves session session' [] waits waits := by
  obtain ⟨-, hstream, hsound'⟩ := Cursor.peek_stream hsound
  exact ⟨session.cursor.peek.1, ⟨session.cursor.peek.2, session.events⟩, rfl, Cursor.lexeme?_peek hsound,
    ⟨hsound', hstream.symm, [], (List.append_nil _).symm, rfl, Bool.le_refl waits⟩⟩

/-- The lexeme that stands next is taken. -/
theorem exists_take (hsound : session.cursor.Sound) {lexeme : Lexeme}
    (h : session.lexemes = lexeme :: rest) (waits : Bool) :
    ∃ session', perform take session = (.ok (.lexeme lexeme), session') ∧
      Moves session session' [lexeme] waits false := by
  obtain ⟨htake, hsound'⟩ := Cursor.take_stream hsound
  have htaken : session.cursor.stream.take =
      (.lexeme lexeme, { session.cursor.stream with lexemes := rest }) := by
    rw [TokenStream.take, show session.cursor.stream.lexemes = lexeme :: rest from h]
  obtain ⟨hhead, hrest⟩ := Prod.mk.inj (htaken.symm.trans htake)
  refine ⟨⟨session.cursor.take.2, session.events ++ [.take session.cursor.take.1]⟩, ?_,
    ⟨hsound', ?_, [.take session.cursor.take.1], rfl, ?_, Bool.le_refl false⟩⟩
  · rw [hhead]
    rfl
  · rw [Session.lexemes, ← hrest, List.singleton_append, ← h]
    rfl
  · rw [← hhead]
    rfl

theorem Gives.pure (a : α) (lexemes : List Lexeme) (waits : Bool) :
    Gives lexemes waits waits (Pure.pure a) (.done a lexemes) := by
  rintro session hsound rfl
  exact .done (.refl hsound waits)

theorem Gives.fail (failure : Failure) (lexemes : List Lexeme) (waits waits' : Bool) :
    Gives lexemes waits waits' (Session.fail failure : Action α) (.failed failure lexemes) := by
  rintro session hsound rfl
  exact .failed ((Moves.refl hsound waits).mono (Bool.le_refl waits) (Bool.le_true waits))

theorem Gives.fail_bind (failure : Failure) (next : α → Action β) (lexemes : List Lexeme)
    (waits waits' : Bool) :
    Gives lexemes waits waits' (Session.fail failure >>= next) (.failed failure lexemes) := by
  intro session hsound hlexemes
  rw [perform_bind]
  exact Gives.fail failure lexemes waits waits' session hsound hlexemes

theorem Gives.exhausted (lexemes : List Lexeme) (waits waits' : Bool) :
    Gives lexemes waits waits' (throw .exhausted : Action α) .exhausted :=
  fun _ _ _ => .exhausted

/-- What is done one after the other gives what is read one after the other. -/
theorem Gives.bind {next : α → Action β} {next' : α → List Lexeme → Outcome β}
    (hgives : Gives lexemes waits waits' action outcome)
    (hnext : ∀ result rest, Gives rest waits' later (next result) (next' result rest)) :
    Gives lexemes waits later (action >>= next) (outcome.andThen next') := by
  intro session hsound hlexemes
  have hanswers := hgives session hsound hlexemes
  rw [perform_bind]
  generalize perform action session = run at hanswers ⊢
  cases hanswers with
  | done h => exact (hnext _ _ _ h.sound rfl).behind h
  | failed h => exact .failed h
  | exhausted => exact .exhausted

theorem Gives.peek {next : Head → Action α}
    (h : ∀ head : Head, head.lexeme? = lexemes.head? → Gives lexemes waits waits' (next head) outcome) :
    Gives lexemes waits waits' (Session.peek >>= next) outcome := by
  rintro session hsound rfl
  obtain ⟨head, session', hperform, hhead, hmoves⟩ := exists_peek hsound waits
  rw [perform_bind, hperform]
  exact (h head hhead session' hmoves.sound hmoves.lexemes_eq.symm).behind hmoves

theorem Gives.take {lexeme : Lexeme} {next : Head → Action α}
    (h : Gives rest false waits' (next (.lexeme lexeme)) outcome) (waits : Bool) :
    Gives (lexeme :: rest) waits waits' (Session.take >>= next) outcome := by
  intro session hsound hlexemes
  obtain ⟨session', hperform, hmoves⟩ := exists_take hsound hlexemes waits
  have hrest : session'.lexemes = rest :=
    List.tail_eq_of_cons_eq (hmoves.lexemes_eq.symm.trans hlexemes)
  rw [perform_bind, hperform]
  exact (h session' hmoves.sound hrest).behind hmoves

/-- A loop goes round, if no turn is waiting. -/
theorem Gives.turn {next : Unit → Action α} (h : Gives lexemes true waits' (next ()) outcome) :
    Gives lexemes false waits' (Session.turn >>= next) outcome := by
  intro session hsound hlexemes
  have hmoves : Moves session ⟨session.cursor, session.events ++ [.turn]⟩ [] false true :=
    ⟨hsound, rfl, [.turn], rfl, rfl, rfl, Bool.le_refl true⟩
  exact (h ⟨session.cursor, session.events ++ [.turn]⟩ hsound hlexemes).behind hmoves

/-- The next two tokens are looked at. -/
theorem Gives.glance {next : Option Token × Option Token → Action α}
    (h : Gives lexemes waits waits' (next (firstToken lexemes, firstToken lexemes.tail)) outcome) :
    Gives lexemes waits waits' (Session.glance >>= next) outcome := by
  rintro session hsound rfl
  obtain ⟨head, session', hperform, hhead, hmoves⟩ := exists_peek hsound waits
  have hlexemes : session'.lexemes = session.lexemes := hmoves.lexemes_eq.symm
  have hfirst : head.token? = firstToken session.lexemes := congrArg (Option.map Lexeme.token) hhead
  have hsecond : session'.cursor.take.2.peek.1.token? = firstToken session.lexemes.tail := by
    obtain ⟨htake, hsound'⟩ := Cursor.take_stream hmoves.sound
    have hstream : session'.cursor.take.2.stream = session'.cursor.stream.take.2 := by rw [htake]
    have hrest : session'.cursor.take.2.stream.lexemes = session.lexemes.tail := by
      rw [← hlexemes, Session.lexemes, hstream, TokenStream.take]
      cases session'.cursor.stream.lexemes <;> rfl
    rw [← hrest]
    exact congrArg (Option.map Lexeme.token) (Cursor.lexeme?_peek hsound')
  have hglance : perform Session.glance session =
      (.ok (firstToken session.lexemes, firstToken session.lexemes.tail), session') := by
    rw [Session.glance, perform_bind, hperform, ← hfirst, ← hsecond]
    rfl
  rw [perform_bind, hglance]
  exact (h session' hmoves.sound hlexemes).behind hmoves

end Perform

/-! ### Tokens -/

section Tokens

variable {α : Type} {lexemes rest : List Lexeme} {waits waits' : Bool} {outcome : Outcome α}

theorem startsWith_punct {head : Head} (hhead : head.lexeme? = lexemes.head?) (p : Punctuator) :
    startsWith (· = .punct p) lexemes = decide (head.token? = some (.punct p)) := by
  have htoken : head.token? = firstToken lexemes := congrArg (Option.map Lexeme.token) hhead
  rw [startsWith, htoken]
  cases firstToken lexemes <;> simp

/-- A token is taken if it is accepted. -/
theorem Gives.takeIf {accepts : Token → Bool} {next : Option Lexeme → Action α}
    (hsome : ∀ lexeme rest, lexemes = lexeme :: rest → accepts lexeme.token = true →
      Gives rest false waits' (next (some lexeme)) outcome)
    (hnone : startsWith accepts lexemes = false → Gives lexemes waits waits' (next none) outcome) :
    Gives lexemes waits waits' (Session.takeIf accepts >>= next) outcome := by
  rw [Session.takeIf, bind_assoc]
  refine .peek fun head hhead => ?_
  cases head with
  | finish offset comments =>
    obtain rfl : lexemes = [] := List.head?_eq_none_iff.1 hhead.symm
    rw [pure_bind]
    exact hnone rfl
  | lexeme lexeme =>
    obtain ⟨rest, rfl⟩ := List.head?_eq_some_iff.1 hhead.symm
    simp only
    split
    · next haccepts =>
      rw [bind_assoc]
      exact .take (by simpa using hsome lexeme rest rfl haccepts) waits
    · next haccepts =>
      rw [pure_bind]
      exact hnone (by simpa [startsWith, firstToken] using haccepts)

theorem takeToken_gives (accepts : Token → Bool) (failure : Failure) (lexemes : List Lexeme)
    (waits : Bool) : Gives lexemes waits false (takeToken accepts failure)
      (GraphQLTree.takeToken accepts failure lexemes) := by
  refine .takeIf (fun lexeme rest heq haccepts => ?_) fun haccepts => ?_
  · rw [heq, GraphQLTree.takeToken, if_pos haccepts]
    exact .pure lexeme rest false
  · rw [takeToken_of_startsWith_eq_false haccepts]
    exact .fail failure lexemes waits false

/-- Whether a list is closed depends on the next token. -/
theorem Gives.closes {close : Punctuator} {empty : Failure} {allowEmpty : Bool} {next : Bool → Action α}
    (hopen : startsWith (· = .punct close) lexemes = false →
      Gives lexemes waits waits' (next false) outcome)
    (hclosed : startsWith (· = .punct close) lexemes = true → allowEmpty = true →
      Gives lexemes waits waits' (next true) outcome)
    (hempty : startsWith (· = .punct close) lexemes = true → allowEmpty = false →
      outcome = .failed empty lexemes) :
    Gives lexemes waits waits' (Session.closes close empty allowEmpty >>= next) outcome := by
  rw [Session.closes, bind_assoc]
  refine .peek fun head hhead => ?_
  have hstarts := startsWith_punct hhead close
  split
  · next hclose =>
    cases allowEmpty with
    | true =>
      rw [if_pos rfl, pure_bind]
      exact hclosed (hstarts.trans (decide_eq_true hclose)) rfl
    | false =>
      rw [hempty (hstarts.trans (decide_eq_true hclose)) rfl]
      exact .fail_bind empty next lexemes waits waits'
  · next hclose =>
    rw [pure_bind]
    exact hopen (hstarts.trans (decide_eq_false hclose))

end Tokens

/-! ### Loops -/

section Loops

variable {sub : Action Node} {sub' : List Lexeme → Outcome Node}
  (hsub : ∀ lexemes, Gives lexemes true false sub (sub' lexemes)) (depth : Nat) (lexemes : List Lexeme)
include hsub

/-- Each item of a list takes the lexeme that the turn in front of it waits for. -/
theorem readList_gives {halt : Head → Bool} {stop : List Lexeme → Bool}
    (hstop : ∀ (head : Head) (lexemes : List Lexeme), head.lexeme? = lexemes.head? →
      halt head = stop lexemes) :
    Gives lexemes false false (readList sub halt depth) (readUntil sub' stop depth lexemes) := by
  induction depth generalizing lexemes with
  | zero =>
    rw [readList, readUntil]
    refine .peek fun head hhead => ?_
    rw [hstop head lexemes hhead]
    split
    · exact .pure [] lexemes false
    · exact .turn (.exhausted lexemes true false)
  | succ depth ih =>
    rw [readList, readUntil]
    refine .peek fun head hhead => ?_
    rw [hstop head lexemes hhead]
    split
    · exact .pure [] lexemes false
    · exact .turn ((hsub lexemes).bind fun node rest =>
        (ih rest).bind fun nodes rest => .pure (node :: nodes) rest false)

/-- The last turn of a wrapped list waits for what closes it. -/
theorem readWrapped_gives (close : Punctuator) (empty : Failure) (allowEmpty : Bool) :
    Gives lexemes false true (readWrapped sub close empty allowEmpty depth)
      (if startsWith (· = .punct close) lexemes && !allowEmpty then .failed empty lexemes
        else readUntil sub' (startsWith (· = .punct close)) depth lexemes) := by
  induction depth generalizing allowEmpty lexemes with
  | zero =>
    rw [readWrapped, readUntil]
    refine .turn (.closes (fun hopen => ?_) (fun hclosed hallow => ?_) fun hclosed hallow => ?_)
    · simp only [hopen]
      exact .exhausted lexemes true true
    · simp only [hclosed, hallow]
      exact .pure [] lexemes true
    · simp [hclosed, hallow]
  | succ depth ih =>
    rw [readWrapped, readUntil]
    refine .turn (.closes (fun hopen => ?_) (fun hclosed hallow => ?_) fun hclosed hallow => ?_)
    · simp only [hopen]
      exact (hsub lexemes).bind fun node rest =>
        .bind (by simpa using ih rest true) fun nodes rest => .pure (node :: nodes) rest true
    · simp only [hclosed, hallow]
      exact .pure [] lexemes true
    · simp [hclosed, hallow]

theorem readDelimited_gives (delimiter : Punctuator) :
    Gives lexemes false false (readDelimited sub delimiter depth)
      (readSeparated sub' delimiter depth lexemes) := by
  induction depth generalizing lexemes with
  | zero => exact .exhausted lexemes false false
  | succ depth ih =>
    rw [readDelimited, readSeparated]
    refine .turn ((hsub lexemes).bind fun node rest =>
      .takeIf (fun lexeme later heq haccepts => ?_) fun hother => ?_)
    · subst heq
      simp only [of_decide_eq_true haccepts, if_true]
      exact (ih later).bind fun read rest => .pure (node :: read.1, lexeme.comments ++ read.2) rest false
    · cases rest with
      | nil => exact .pure ([node], []) [] false
      | cons lexeme later =>
        simp only
        rw [if_neg (by simpa [startsWith, firstToken] using hother)]
        exact .pure ([node], []) (lexeme :: later) false

end Loops

end Session

/-! ### Parts and items -/

/-- Whether a turn may be waiting behind a part if one may be in front of it. There is no answer where a loop
would begin to turn while another one is waiting. -/
def Part.waits? (waits : Bool) : Part → Option Bool
  | gap _ => some waits
  | juxtaposed _ => some waits
  | demand _ => some waits
  | listed _ _ _ _ => if waits then none else some true
  | repeated _ _ _ => if waits then none else some false
  | separated _ _ _ => if waits then none else some false
  | _ => some false

/-- Whether a turn may be waiting behind an item, which may be left out if it is a group. -/
def Item.waits? (waits : Bool) : Item → Option Bool
  | part p => p.waits? waits
  | group _ _ parts => (parts.foldlM Part.waits? waits).map (waits || ·)

/-- Productions take something before a loop of theirs turns, and behind the last turn. -/
theorem Production.waits_items {p : Production} (h : p.isReadable = true) :
    p.items.foldlM Item.waits? true = some false := by
  have hcheck := Production.check
    (fun p => !p.isReadable || p.items.foldlM Item.waits? true = some false) (by decide) p
  simpa [h] using hcheck

namespace Session

section Rules

variable {sub : Goal → Action Node} {sub' : Goal → List Lexeme → Outcome Node}
  (hsub : ∀ goal : Goal, goal.isReadable = true → ∀ lexemes : List Lexeme,
    Gives lexemes true false (sub goal) (sub' goal lexemes))
  (depth : Nat) (kind : Kind) {waits waits' : Bool}

theorem readName_gives (draft : Draft) (lexemes : List Lexeme) (slot : Slot) (rule : NameRule)
    (waits : Bool) :
    Gives lexemes waits false (readName kind draft slot rule)
      (Part.read.readName kind draft lexemes slot rule) := by
  refine .peek fun head hhead => ?_
  cases head with
  | finish offset comments =>
    obtain rfl : lexemes = [] := List.head?_eq_none_iff.1 hhead.symm
    exact .fail _ [] waits false
  | lexeme lexeme =>
    obtain ⟨rest, rfl⟩ := List.head?_eq_some_iff.1 hhead.symm
    obtain ⟨token, span, comments⟩ := lexeme
    cases token with
    | name text =>
      simp only [Part.read.readName]
      cases hrefuse : rule.refuses? text with
      | some expectation => exact .fail _ _ waits false
      | none =>
        refine .take ?_ waits
        exact .pure _ rest false
    | _ => exact .fail _ _ waits false

/-- A delimiter may be taken in front of children with delimiters between them. -/
theorem separated_gives {goal : Goal}
    (hgoal : ∀ lexemes, Gives lexemes true false (sub goal) (sub' goal lexemes)) (slot : Slot)
    (delimiter : Punctuator) (draft : Draft) (lexemes : List Lexeme) :
    Gives lexemes false false (readPart sub depth kind draft (.separated slot goal delimiter))
      ((Part.separated slot goal delimiter).read sub' depth kind draft lexemes) := by
  have hdelimited (draft : Draft) (lexemes : List Lexeme) :=
    (readDelimited_gives hgoal depth lexemes delimiter).bind
      fun read rest => .pure ((draft.addAll slot read.1).addComments .comments read.2) rest false
  refine .takeIf (fun lexeme rest heq haccepts => ?_) fun hother => ?_
  · subst heq
    simp only [Part.read, Draft.skipDelimiter, of_decide_eq_true haccepts, if_true]
    exact hdelimited (draft.addComments .comments lexeme.comments) rest
  · simp only [Part.read, Draft.skipDelimiter_eq_self hother, Option.elim_none, Draft.addComments_nil]
    exact hdelimited draft lexemes

include hsub

theorem readPart_gives {part : Part} (hpart : part.isReadable = true)
    (hwaits : part.waits? waits = some waits') (draft : Draft) (lexemes : List Lexeme) :
    Gives lexemes waits waits' (readPart sub depth kind draft part)
      (part.read sub' depth kind draft lexemes) := by
  have hask {slot : Slot} {goal : Goal} (h : (slot, goal) ∈ part.asks) : goal.isReadable = true :=
    (Part.isReadable_of_asks hpart h).2
  -- Only loops may have to turn while another turn is waiting.
  have hloop {later : Bool} (h : (if waits = true then none else some later) = some waits') :
      waits = false ∧ waits' = later := by
    cases waits with
    | false => exact ⟨rfl, (Option.some.inj h).symm⟩
    | true => cases h
  have htoken (accepts : Token → Bool) (failure : Failure) (f : Lexeme → Draft)
      (h : some false = some waits') :
      Gives lexemes waits waits' (takeToken accepts failure >>= fun lexeme => pure (f lexeme))
        ((GraphQLTree.takeToken accepts failure lexemes).map f) := by
    obtain rfl := Option.some.inj h
    exact (takeToken_gives accepts failure lexemes waits).bind fun lexeme rest => .pure (f lexeme) rest false
  have hchild (slot : Slot) (goal : Goal) (hgoal : goal.isReadable = true) (h : some false = some waits') :
      Gives lexemes waits waits' (sub goal >>= fun node => pure (draft.add slot node))
        ((sub' goal lexemes).map fun node => draft.add slot node) := by
    obtain rfl := Option.some.inj h
    exact ((hsub goal hgoal lexemes).mono (Bool.le_true waits) (Bool.le_refl false)).bind
      fun node rest => .pure (draft.add slot node) rest false
  cases part with
  | gap g =>
    obtain rfl := Option.some.inj hwaits
    exact .pure draft lexemes waits
  | punct p => exact htoken _ _ _ hwaits
  | bracket p slot => exact htoken _ _ _ hwaits
  | keyword k => exact htoken _ _ _ hwaits
  | name slot rule =>
    obtain rfl := Option.some.inj hwaits
    exact readName_gives kind draft lexemes slot rule waits
  | spacedName slot =>
    obtain rfl := Option.some.inj hwaits
    exact readName_gives kind draft lexemes slot .any waits
  | literal l => exact htoken _ _ _ hwaits
  | child slot goal => exact hchild slot goal (hask (List.mem_singleton_self _)) hwaits
  | opened p slot goal =>
    rw [readPart, Part.read]
    refine .peek fun head hhead => ?_
    simp only [startsWith_punct hhead p, decide_eq_true_eq]
    split
    · exact hchild slot goal (hask (List.mem_singleton_self _)) hwaits
    · exact .fail _ lexemes waits waits'
  | listed slot goal close allowEmpty =>
    obtain ⟨rfl, rfl⟩ := hloop hwaits
    have hlist := readWrapped_gives (hsub goal (hask (List.mem_singleton_self _))) depth lexemes close
      ⟨.kind kind, none⟩ allowEmpty
    have hgives := hlist.bind fun nodes rest => .pure (draft.addAll slot nodes) rest true
    rw [Part.read]
    split
    · next hempty =>
      rw [if_pos hempty] at hgives
      exact hgives
    · next hempty =>
      rw [if_neg hempty] at hgives
      exact hgives
  | repeated slot goal start =>
    obtain ⟨rfl, rfl⟩ := hloop hwaits
    refine (readList_gives (hsub goal (hask (List.mem_singleton_self _))) depth lexemes ?_).bind
      fun nodes rest => .pure (draft.addAll slot nodes) rest false
    intro head lexemes hhead
    rw [startsWith_punct hhead start, decide_not]
  | separated slot goal delimiter =>
    obtain ⟨rfl, rfl⟩ := hloop hwaits
    exact separated_gives depth kind (hsub goal (hask (List.mem_singleton_self _))) slot delimiter draft lexemes
  | juxtaposed slot =>
    obtain rfl := Option.some.inj hwaits
    exact .pure draft lexemes waits
  | demand p =>
    obtain rfl := Option.some.inj hwaits
    rw [readPart, Part.read]
    split
    · exact .pure draft lexemes waits
    · exact .fail _ lexemes waits waits

theorem readParts_gives {parts : List Part} (hparts : ∀ part ∈ parts, part.isReadable = true)
    (hwaits : parts.foldlM Part.waits? waits = some waits') (draft : Draft) (lexemes : List Lexeme) :
    Gives lexemes waits waits' (parts.foldlM (readPart sub depth kind) draft)
      (readParts sub' depth kind parts draft lexemes) := by
  induction parts generalizing waits draft lexemes with
  | nil =>
    obtain rfl := Option.some.inj hwaits
    exact .pure draft lexemes waits
  | cons part parts ih =>
    rw [List.foldlM_cons] at hwaits ⊢
    obtain ⟨between, hpart, hrest⟩ := Option.bind_eq_some_iff.1 hwaits
    exact (readPart_gives hsub depth kind (hparts part List.mem_cons_self) hpart draft lexemes).bind
      (ih (fun p hp => hparts p (List.mem_cons_of_mem _ hp)) hrest)

theorem readItem_gives {item : Item} (hitem : item.isReadable = true)
    (hwaits : item.waits? waits = some waits') (draft : Draft) (lexemes : List Lexeme) :
    Gives lexemes waits waits' (readItem sub depth kind draft item)
      (item.read sub' depth kind draft lexemes) := by
  cases item with
  | part p => exact readPart_gives hsub depth kind hitem hwaits draft lexemes
  | group guard presence parts =>
    obtain ⟨inside, hparts, rfl⟩ := Option.map_eq_some_iff.1 hwaits
    have hholds : guard.holds lexemes = guard.admits (firstToken lexemes) (firstToken lexemes.tail) := rfl
    rw [readItem, Item.read, hholds]
    refine .glance ?_
    simp only
    split
    · exact (readParts_gives hsub depth kind (List.all_eq_true.1 hitem) hparts draft lexemes).mono
        (Bool.le_refl waits) (Bool.right_le_or waits inside)
    · exact (Gives.pure draft lexemes waits).mono (Bool.le_refl waits) (Bool.left_le_or waits inside)

theorem readItems_gives {items : List Item} (hitems : ∀ item ∈ items, item.isReadable = true)
    (hwaits : items.foldlM Item.waits? waits = some waits') (draft : Draft) (lexemes : List Lexeme) :
    Gives lexemes waits waits' (items.foldlM (readItem sub depth kind) draft)
      (readItems sub' depth kind items draft lexemes) := by
  induction items generalizing waits draft lexemes with
  | nil =>
    obtain rfl := Option.some.inj hwaits
    exact .pure draft lexemes waits
  | cons item items ih =>
    rw [List.foldlM_cons] at hwaits ⊢
    obtain ⟨between, hitem, hrest⟩ := Option.bind_eq_some_iff.1 hwaits
    exact (readItem_gives hsub depth kind (hitems item List.mem_cons_self) hitem draft lexemes).bind
      (ih (fun i hi => hitems i (List.mem_cons_of_mem _ hi)) hrest)

/-- A production reads something before it is done. -/
theorem readProduction_gives {p : Production} (hp : p.isReadable = true) (lexemes : List Lexeme) :
    Gives lexemes true false (readProduction sub depth p) (p.read sub' depth lexemes) :=
  (readItems_gives hsub depth p.kind (p.isReadable_of_mem_items hp) (p.waits_items hp) _ lexemes).bind
    fun draft rest => .pure (draft.finish p.kind) rest false

end Rules

/-! ### Goals -/

/-- An exclamation mark behind a type is taken. -/
theorem wrapType_gives (node : Node) (lexemes : List Lexeme) :
    Gives lexemes false false (wrapType node) (Goal.wrapType node lexemes) := by
  refine .takeIf (fun lexeme rest heq haccepts => ?_) fun hother => ?_
  · obtain ⟨token, span, comments⟩ := lexeme
    obtain rfl : token = .punct .exclamation := of_decide_eq_true haccepts
    subst heq
    exact .pure _ rest false
  · have hwrap : Goal.wrapType node lexemes = .done node lexemes := by
      unfold Goal.wrapType
      split
      · simp [startsWith, firstToken] at hother
      · rfl
    rw [hwrap]
    exact .pure node lexemes false

/-- Reading a goal in a session gives what reading it from lexemes does. -/
theorem readGoal_gives {goal : Goal} (hgoal : goal.isReadable = true) (depth : Nat)
    (lexemes : List Lexeme) : Gives lexemes true false (readGoal depth goal) (goal.read depth lexemes) := by
  induction depth generalizing goal lexemes with
  | zero => exact .exhausted lexemes true false
  | succ depth ih =>
    rw [readGoal, Goal.read]
    refine .glance ?_
    cases hchoice : goal.choose (firstToken lexemes) (firstToken lexemes.tail) with
    | refuse skipped construct expected =>
      simp only [hchoice]
      rcases Goal.skip_of_refuse hchoice with rfl | ⟨rfl, token, hfirst, -⟩
      · rw [skip, pure_bind]
        exact .fail _ lexemes true false
      · cases lexemes with
        | nil => cases hfirst
        | cons lexeme rest =>
          rw [skip, bind_assoc]
          refine .take ?_ true
          rw [skip, pure_bind]
          exact .fail _ rest false false
    | take p =>
      have hreadable := Goal.isReadable_of_mem hgoal (Goal.choose_mem hchoice)
      have hread := readProduction_gives (fun goal hgoal lexemes => ih hgoal lexemes) depth hreadable lexemes
      simp only [hchoice]
      split
      · exact hread.bind wrapType_gives
      · rw [bind_pure]
        exact hread

end Session

end GraphQLTree
