import GraphQLTree.Grammar.Parser
import GraphQLTree.Token.Cursor

/-!
# Reading on demand

A **session** reads a target from a cursor, which scans the text no further than it is looked at and gives
the end of the text for ever once it is there. It keeps a record of what happens: what is taken, the end of
the text included, and each **turn** of a loop. Where the next token doesn't decide, the one behind it is
looked at on a copy of the cursor.

A loop only looks for what closes its list. It would turn for ever in front of the end of the text if its
items could be read there without taking anything.
-/

namespace GraphQLTree

open TokenStream (Head)

namespace TokenStream.Head

/-- The lexeme that stands next. -/
def lexeme? : Head → Option Lexeme
  | lexeme next => some next
  | finish _ _ => none

/-- The token that stands next. -/
def token? (head : Head) : Option Token :=
  head.lexeme?.map Lexeme.token

end TokenStream.Head

/-- Whether a guard holds of the next two tokens. -/
def Guard.admits (guard : Guard) (first second : Option Token) : Bool :=
  first.any guard.first.accepts && guard.second.all fun terminal => second.any terminal.accepts

/-- What happens while a text is read. -/
inductive Session.Event where
  /-- A loop goes round. -/
  | turn
  | take (head : Head)
  deriving DecidableEq

/-- A cursor, and what has happened to it so far. -/
structure Session where
  cursor : Cursor
  events : List Session.Event

/-- Why a reader stops before it is done. -/
inductive Stop where
  | failed (failure : Failure)
  | exhausted
  deriving DecidableEq

namespace Session

/-- The session at the start of a text. -/
def ofText (text : String) : Session :=
  ⟨.ofText text, []⟩

/-- What is done in a session. -/
abbrev Action (α : Type) : Type :=
  ExceptT Stop (StateM Session) α

/-- Does something in a session. -/
def perform {α : Type} (action : Action α) (session : Session) : Except Stop α × Session :=
  action.run.run session

/-! ### Tokens -/

/-- Fails in front of what stands next. -/
def fail {α : Type} (failure : Failure) : Action α :=
  throw (.failed failure)

/-- Goes round in a loop. -/
def turn : Action Unit :=
  modify fun session => { session with events := session.events ++ [.turn] }

/-- Looks at what stands next. -/
def peek : Action Head :=
  modifyGet fun session =>
    let (head, cursor) := session.cursor.peek
    (head, { session with cursor })

/-- Takes what stands next. -/
def take : Action Head :=
  modifyGet fun session =>
    let (head, cursor) := session.cursor.take
    (head, ⟨cursor, session.events ++ [.take head]⟩)

/-- Looks at the next two tokens. -/
def glance : Action (Option Token × Option Token) := do
  let first ← peek
  let session ← get
  return (first.token?, session.cursor.take.2.peek.1.token?)

/-- Takes what stands next for its comments. -/
def takeComments : Action (List Comment) := do
  match ← take with
  | .lexeme lexeme => return lexeme.comments
  | .finish _ comments => return comments

/-- Takes some of what stands next. -/
def skip : Nat → Action Unit
  | 0 => return
  | n + 1 => do
    let _ ← take
    skip n

/-- Takes the next lexeme if its token is accepted. -/
def takeIf (accepts : Token → Bool) : Action (Option Lexeme) := do
  match ← peek with
  | .lexeme lexeme =>
    if accepts lexeme.token then
      let _ ← take
      return some lexeme
    else return none
  | .finish _ _ => return none

/-- Takes the next lexeme if its token is accepted, and fails in front of it otherwise. -/
def takeToken (accepts : Token → Bool) (failure : Failure) : Action Lexeme := do
  match ← takeIf accepts with
  | some lexeme => return lexeme
  | none => fail failure

/-! ### Loops -/

section Loops

variable (sub : Action Node)

/-- Reads nodes until something halts the list. -/
def readList (halt : Head → Bool) : Nat → Action (List Node)
  | 0 => do
    if halt (← peek) then return []
    else
      turn
      throw .exhausted
  | depth + 1 => do
    if halt (← peek) then return []
    else
      turn
      let node ← sub
      return node :: (← readList halt depth)

/-- Looks for a closing punctuator, in front of which an empty list may fail. -/
def closes (close : Punctuator) (empty : Failure) (allowEmpty : Bool) : Action Bool := do
  if (← peek).token? = some (.punct close) then
    if allowEmpty then return true else fail empty
  else return false

/-- Reads nodes up to a closing punctuator. -/
def readWrapped (close : Punctuator) (empty : Failure) : Bool → Nat → Action (List Node)
  | allowEmpty, 0 => do
    turn
    if ← closes close empty allowEmpty then return [] else throw .exhausted
  | allowEmpty, depth + 1 => do
    turn
    if ← closes close empty allowEmpty then return []
    else
      let node ← sub
      return node :: (← readWrapped close empty true depth)

/-- Reads nodes with a delimiter between them, and collects the comments of the delimiters. -/
def readDelimited (delimiter : Punctuator) : Nat → Action (List Node × List Comment)
  | 0 => throw .exhausted
  | depth + 1 => do
    turn
    let node ← sub
    match ← takeIf (· = .punct delimiter) with
    | none => return ([node], [])
    | some lexeme =>
      let (nodes, comments) ← readDelimited delimiter depth
      return (node :: nodes, lexeme.comments ++ comments)

end Loops

/-! ### Parts and items -/

/-- Reads a name, unless it can't stand in its place. -/
def readName (kind : Kind) (draft : Draft) (slot : Slot) (rule : NameRule) : Action Draft := do
  match ← peek with
  | .lexeme ⟨.name text, _, comments⟩ =>
    match rule.refuses? text with
    | some expectation => fail ⟨.kind kind, some expectation⟩
    | none =>
      let _ ← take
      return (draft.addComments .comments comments).add slot (.ofName text)
  | _ => fail ⟨.kind kind, some .name⟩

section Rules

variable (sub : Goal → Action Node) (depth : Nat) (kind : Kind)

/-- Reads one part of a node of a kind. -/
def readPart (draft : Draft) : Part → Action Draft
  | .gap _ => return draft
  | .punct p => do
    let lexeme ← takeToken (· = .punct p) ⟨.kind kind, some (.punct p)⟩
    return draft.addComments .comments lexeme.comments
  | .bracket p slot => do
    let lexeme ← takeToken (· = .punct p) ⟨.kind kind, some (.punct p)⟩
    return draft.addComments slot lexeme.comments
  | .keyword k => do
    let lexeme ← takeToken (Terminal.keyword k).accepts ⟨.kind kind, some (.keyword k)⟩
    return draft.addComments .comments lexeme.comments
  | .name slot rule => readName kind draft slot rule
  | .spacedName slot => readName kind draft slot .any
  | .literal l => do
    let lexeme ← takeToken (fun token => (l.read? token).isSome) ⟨.kind kind, l.expectation⟩
    return { draft.addComments .comments lexeme.comments with
      atom := (l.read? lexeme.token).getD draft.atom }
  | .child slot goal => return draft.add slot (← sub goal)
  | .opened p slot goal => do
    if (← peek).token? = some (.punct p) then return draft.add slot (← sub goal)
    else fail ⟨.kind kind, some (.punct p)⟩
  | .listed slot goal close allowEmpty =>
    return draft.addAll slot (← readWrapped (sub goal) close ⟨.kind kind, none⟩ allowEmpty depth)
  | .repeated slot goal start =>
    return draft.addAll slot (← readList (sub goal) (·.token? ≠ some (.punct start)) depth)
  | .separated slot goal delimiter => do
    let leading ← takeIf (· = .punct delimiter)
    let (nodes, comments) ← readDelimited (sub goal) delimiter depth
    let draft := draft.addComments .comments (leading.elim [] Lexeme.comments)
    return (draft.addAll slot nodes).addComments .comments comments
  | .juxtaposed _ => return draft
  | .demand p => if draft.hasParts then return draft else fail ⟨.kind kind, some (.punct p)⟩

/-- Reads an item: a group is left out if its guard doesn't hold. -/
def readItem (draft : Draft) : Item → Action Draft
  | .part part => readPart sub depth kind draft part
  | .group guard _ parts => do
    let (first, second) ← glance
    if guard.admits first second then parts.foldlM (readPart sub depth kind) draft
    else return draft

/-- Reads a node of a production. -/
def readProduction (production : Production) : Action Node := do
  let draft ← production.items.foldlM (readItem sub depth production.kind) ⟨production.rule.start, []⟩
  return draft.finish production.kind

end Rules

/-! ### Goals and targets -/

/-- Wraps a type that an exclamation mark follows. -/
def wrapType (node : Node) : Action Node := do
  match ← takeIf (· = .punct .exclamation) with
  | none => return node
  | some lexeme =>
    return .mk .nonNullType .none (Node.ofComments .comments lexeme.comments ++ [(.type, node)])

/-- Reads a goal with a depth of nesting. -/
def readGoal : Nat → Goal → Action Node
  | 0, _ => throw .exhausted
  | depth + 1, goal => do
    let (first, second) ← glance
    match goal.choose first second with
    | .refuse skipped construct expected =>
      skip skipped
      fail ⟨construct, expected⟩
    | .take chosen =>
      let node ← readProduction (readGoal depth) depth chosen
      if goal = .type then wrapType node else return node

/-- Reads a document, which takes the end of the text also. -/
def readDocument (depth : Nat) : Action Node := do
  let definitions ← readList (readGoal depth .definition) (·.lexeme?.isNone) depth
  if definitions.isEmpty then fail ⟨.kind .document, some .definition⟩
  else
    let comments ← takeComments
    let session ← get
    return .mk .document (.size session.cursor.size)
      (definitions.map (.definitions, ·) ++ Node.ofComments .comments comments)

/-- Reads a target with a depth of nesting. -/
def read (depth : Nat) : Target → Action Node
  | .document => readDocument depth
  | .goal goal => readGoal depth goal

end Session

/-- Parses a text as a target in a session, with a depth of nesting. -/
def Target.parseIn (target : Target) (depth : Nat) (text : String) : Except Diagnostic Node × Session :=
  let (result, session) := Session.perform (Session.read depth target) (.ofText text)
  match result with
  | .ok node => (.ok node, session)
  | .error (.failed failure) =>
    (.error (failure.diagnostic text.toList session.cursor.peek.1.lexeme?.toList), session)
  | .error .exhausted => (.error (.placeless .tooDeep), session)

end GraphQLTree
