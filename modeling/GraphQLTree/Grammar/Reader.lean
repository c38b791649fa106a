import GraphQLTree.Grammar.Outcome
import GraphQLTree.Grammar.Rule

/-!
# Reading

Reading a goal chooses a production and goes through the items of its rule, collecting a **draft**
of the node: its atom and its children in the order of the text. The finished node has its children
in the order of its kind's fields.

Reading never goes back: every decision is made by the next token, or the next two, and a failure
is reported at the lexeme that no decision allows. Nesting is bounded by a depth that the number of
lexemes gives, since no goal is nested in itself without a token in between.
-/

namespace GraphQLTree

/-- A node in the making. -/
structure Draft where
  atom : Atom
  entries : List (Slot × Node)

namespace Draft

/-- Adds a child. -/
def add (draft : Draft) (slot : Slot) (node : Node) : Draft :=
  { draft with entries := draft.entries ++ [(slot, node)] }

/-- Adds children in one slot. -/
def addAll (draft : Draft) (slot : Slot) (nodes : List Node) : Draft :=
  { draft with entries := draft.entries ++ nodes.map (slot, ·) }

/-- Adds comments in a slot. -/
def addComments (draft : Draft) (slot : Slot) (comments : List Comment) : Draft :=
  { draft with entries := draft.entries ++ Node.ofComments slot comments }

/-- Whether there is a child besides comments and the name. -/
def hasParts (draft : Draft) : Bool :=
  draft.entries.any fun entry => !entry.1.holdsComments && entry.1 != .name

/-- The finished node. -/
def finish (draft : Draft) (kind : Kind) : Node :=
  .mk kind draft.atom (Node.arrange kind draft.entries)

end Draft

/-! ### Repetition

Each loop reads one node after the other, at most as many as it has depth for. -/

section Repetition

variable (sub : List Lexeme → Outcome Node)

/-- Reads nodes until the lexemes that are left say to stop. -/
def readUntil (stop : List Lexeme → Bool) : Nat → List Lexeme → Outcome (List Node)
  | depth, lexemes =>
    if stop lexemes then .done [] lexemes
    else match depth with
      | 0 => .exhausted
      | depth + 1 =>
        (sub lexemes).andThen fun node rest => (readUntil stop depth rest).map (node :: ·)

/-- Reads nodes with a delimiter between them, and collects the comments of the delimiters. -/
def readSeparated (delimiter : Punctuator) :
    Nat → List Lexeme → Outcome (List Node × List Comment)
  | 0, _ => .exhausted
  | depth + 1, lexemes =>
    (sub lexemes).andThen fun node rest =>
      match rest with
      | lexeme :: rest' =>
        if lexeme.token = .punct delimiter then
          (readSeparated delimiter depth rest').map fun (nodes, comments) =>
            (node :: nodes, lexeme.comments ++ comments)
        else .done ([node], []) rest
      | [] => .done ([node], []) rest

end Repetition

/-! ### Parts and items -/

/-- Takes a delimiter that may stand before the first of some children. -/
def Draft.skipDelimiter (draft : Draft) (delimiter : Punctuator) :
    List Lexeme → Draft × List Lexeme
  | lexeme :: rest =>
    if lexeme.token = .punct delimiter then (draft.addComments .comments lexeme.comments, rest)
    else (draft, lexeme :: rest)
  | [] => (draft, [])

/-- Takes the next lexeme if its token is accepted, and fails in front of it otherwise. -/
def takeToken (accepts : Token → Bool) (failure : Failure) : List Lexeme → Outcome Lexeme
  | lexeme :: rest => if accepts lexeme.token then .done lexeme rest
    else .failed failure (lexeme :: rest)
  | [] => .failed failure []

/-- Whether some lexemes start with what a guard asks for. -/
def Guard.holds (guard : Guard) (lexemes : List Lexeme) : Bool :=
  startsWith guard.first.accepts lexemes &&
    guard.second.all fun terminal => startsWith terminal.accepts lexemes.tail

section Rules

variable (sub : Goal → List Lexeme → Outcome Node) (depth : Nat) (kind : Kind)

/-- Reads one part of a node of a kind. -/
def Part.read (draft : Draft) (lexemes : List Lexeme) : Part → Outcome Draft
  | gap _ => .done draft lexemes
  | punct p =>
    (takeToken (· = .punct p) ⟨.kind kind, some (.punct p)⟩ lexemes).map fun lexeme =>
      draft.addComments .comments lexeme.comments
  | bracket p slot =>
    (takeToken (· = .punct p) ⟨.kind kind, some (.punct p)⟩ lexemes).map fun lexeme =>
      draft.addComments slot lexeme.comments
  | keyword k =>
    (takeToken (Terminal.keyword k).accepts ⟨.kind kind, some (.keyword k)⟩ lexemes).map
      fun lexeme => draft.addComments .comments lexeme.comments
  | name slot rule => readName slot rule
  | spacedName slot => readName slot .any
  | literal l =>
    (takeToken (fun token => (l.read? token).isSome) ⟨.kind kind, l.expectation⟩ lexemes).map
      fun lexeme =>
        { draft.addComments .comments lexeme.comments with
          atom := (l.read? lexeme.token).getD draft.atom }
  | child slot goal => (sub goal lexemes).map fun node => draft.add slot node
  | opened p slot goal =>
    if startsWith (· = .punct p) lexemes then
      (sub goal lexemes).map fun node => draft.add slot node
    else .failed ⟨.kind kind, some (.punct p)⟩ lexemes
  | listed slot goal close allowEmpty =>
    if startsWith (· = .punct close) lexemes && !allowEmpty then
      .failed ⟨.kind kind, none⟩ lexemes
    else
      (readUntil (sub goal) (startsWith (· = .punct close)) depth lexemes).map fun nodes =>
        draft.addAll slot nodes
  | repeated slot goal start =>
    (readUntil (sub goal) (fun rest => !startsWith (· = .punct start) rest) depth lexemes).map
      fun nodes => draft.addAll slot nodes
  | separated slot goal delimiter =>
    let (draft, lexemes) := draft.skipDelimiter delimiter lexemes
    (readSeparated (sub goal) delimiter depth lexemes).map fun (nodes, comments) =>
      (draft.addAll slot nodes).addComments .comments comments
  | juxtaposed _ => .done draft lexemes
  | demand p =>
    if draft.hasParts then .done draft lexemes
    else .failed ⟨.kind kind, some (.punct p)⟩ lexemes
where
  /-- Reads a name, unless it can't stand in its place. -/
  readName (slot : Slot) (rule : NameRule) : Outcome Draft :=
    match lexemes with
    | ⟨.name text, _, comments⟩ :: rest =>
      match rule.refuses? text with
      | some expectation => .failed ⟨.kind kind, some expectation⟩ lexemes
      | none => .done ((draft.addComments .comments comments).add slot (.ofName text)) rest
    | _ => .failed ⟨.kind kind, some .name⟩ lexemes

/-- Reads parts one after the other. -/
def readParts : List Part → Draft → List Lexeme → Outcome Draft
  | [], draft, lexemes => .done draft lexemes
  | part :: parts, draft, lexemes =>
    (part.read sub depth kind draft lexemes).andThen (readParts parts)

/-- Reads an item: a group is left out if its guard doesn't hold. -/
def Item.read (draft : Draft) (lexemes : List Lexeme) : Item → Outcome Draft
  | part p => p.read sub depth kind draft lexemes
  | group guard _ parts =>
    if guard.holds lexemes then readParts sub depth kind parts draft lexemes
    else .done draft lexemes

/-- Reads items one after the other. -/
def readItems : List Item → Draft → List Lexeme → Outcome Draft
  | [], draft, lexemes => .done draft lexemes
  | item :: items, draft, lexemes =>
    (item.read sub depth kind draft lexemes).andThen (readItems items)

end Rules

/-- The item of a description that may stand in front of a node. -/
def Item.description : Item :=
  optional (.next .string) .description [] (.kind .stringValue)

namespace Production

/-- The items of a production for a reader, which takes a description for one of them. -/
def items (production : Production) : List Item :=
  if production.rule.described then .description :: production.rule.items
  else production.rule.items

/-- Reads a node of a production. -/
def read (sub : Goal → List Lexeme → Outcome Node) (depth : Nat) (production : Production)
    (lexemes : List Lexeme) : Outcome Node :=
  (readItems sub depth production.kind production.items ⟨production.rule.start, []⟩ lexemes).map
    fun draft => draft.finish production.kind

end Production

namespace Goal

/-- Wraps a type that an exclamation mark follows. -/
def wrapType (node : Node) (lexemes : List Lexeme) : Outcome Node :=
  match lexemes with
  | ⟨.punct .exclamation, _, comments⟩ :: rest =>
    .done (.mk .nonNullType .none (Node.ofComments .comments comments ++ [(.type, node)])) rest
  | _ => .done node lexemes

/-- Reads a goal with a depth of nesting. -/
def read : Nat → Goal → List Lexeme → Outcome Node
  | 0, _, _ => .exhausted
  | depth + 1, goal, lexemes =>
    match goal.choose (firstToken lexemes) (firstToken lexemes.tail) with
    | .refuse skip construct expected => .failed ⟨construct, expected⟩ (lexemes.drop skip)
    | .take chosen =>
      let outcome := chosen.read (read depth) depth lexemes
      if goal = .type then outcome.andThen wrapType else outcome

/-- A depth that is enough for any goal: between two tokens goals are nested a few deep only. -/
def depthFor (lexemes : List Lexeme) : Nat :=
  4 * (lexemes.length + 1)

end Goal

end GraphQLTree
