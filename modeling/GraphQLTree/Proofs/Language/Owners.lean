import GraphQLTree.Proofs.Language.Complete
import GraphQLTree.Proofs.Tree.Leaves

/-!
# Whom tokens belong to

Every token of a document **belongs** to a node: a name to a node of its own, and any other token to the
node whose form it is written by. The grammar is stated here for **owned** tokens, which say the kind of
that node: the symbol that a token is derived from says whom it belongs to (`Assigns`, `AssignsNode`,
`AssignsDocument`). It is the same grammar, since it derives a tree from tokens if and only if it derives
it from the tokens with some owners (`yieldsNode_iff`, `yieldsDocument_iff`).
-/

namespace GraphQLTree

namespace Language

/-! ### Derivations -/

/-- The symbols that may stand for a symbol. -/
inductive Expands : Symbol → List Symbol → Prop
  | absent (optional : List Symbol) : Expands (.optional optional) []
  | present (optional : List Symbol) : Expands (.optional optional) optional
  | none (slot : Slot) (n : Nonterminal) : Expands (.many slot n) []
  | more (slot : Slot) (n : Nonterminal) : Expands (.many slot n) [.child slot n, .many slot n]
  | some (slot : Slot) (n : Nonterminal) : Expands (.some slot n) [.child slot n, .many slot n]
  | separated (slot : Slot) (n : Nonterminal) (delimiter : Punctuator) :
    Expands (.separated slot n delimiter) [.child slot n, .delimited slot n delimiter]
  | leading (slot : Slot) (n : Nonterminal) (delimiter : Punctuator) :
    Expands (.separated slot n delimiter)
      [.punct delimiter, .child slot n, .delimited slot n delimiter]
  | last (slot : Slot) (n : Nonterminal) (delimiter : Punctuator) :
    Expands (.delimited slot n delimiter) []
  | next (slot : Slot) (n : Nonterminal) (delimiter : Punctuator) :
    Expands (.delimited slot n delimiter)
      [.punct delimiter, .child slot n, .delimited slot n delimiter]

section Symbols

variable (derives : Nonterminal → List Owned → Node → Prop)

/-- The owned tokens that are derived from symbols of a node of a kind, and what they give to the node,
given what is derived from nonterminals. -/
inductive Assigns : List Symbol → Kind → List Owned → Contents → Prop
  | nil {kind : Kind} : Assigns [] kind [] ⟨[], []⟩
  | punct (p : Punctuator) {symbols : List Symbol} {kind : Kind} {owned : List Owned}
    {contents : Contents} (h : Assigns symbols kind owned contents) :
    Assigns (.punct p :: symbols) kind (⟨.punct p, kind⟩ :: owned) contents
  | keyword (k : Keyword) {symbols : List Symbol} {kind : Kind} {owned : List Owned}
    {contents : Contents} (h : Assigns symbols kind owned contents) :
    Assigns (.keyword k :: symbols) kind (⟨.name k.text, kind⟩ :: owned) contents
  /-- A name is a node of its own. -/
  | name (slot : Slot) {except : List Keyword} {text : String}
    (hname : ∀ k ∈ except, text ≠ k.text) {symbols : List Symbol} {kind : Kind}
    {owned : List Owned} {contents : Contents} (h : Assigns symbols kind owned contents) :
    Assigns (.name slot except :: symbols) kind (⟨.name text, .name⟩ :: owned)
      { contents with children := (slot, .ofName text) :: contents.children }
  | lexical {sort : Lexical} {token : Token} {atom : Atom} (hgives : sort.Gives token atom)
    {symbols : List Symbol} {kind : Kind} {owned : List Owned} {contents : Contents}
    (h : Assigns symbols kind owned contents) :
    Assigns (.lexical sort :: symbols) kind (⟨token, kind⟩ :: owned)
      { contents with atoms := atom :: contents.atoms }
  /-- The tokens of a child belong to the child and to nodes below it. -/
  | child (slot : Slot) {nonterminal : Nonterminal} {inner : List Owned} {node : Node}
    (hinner : derives nonterminal inner node) {symbols : List Symbol} {kind : Kind}
    {owned : List Owned} {contents : Contents} (h : Assigns symbols kind owned contents) :
    Assigns (.child slot nonterminal :: symbols) kind (inner ++ owned)
      { contents with children := (slot, node) :: contents.children }
  | expand {symbol : Symbol} {expanded : List Symbol} (hexpands : Expands symbol expanded)
    {symbols : List Symbol} {kind : Kind} {owned : List Owned} {contents : Contents}
    (h : Assigns (expanded ++ symbols) kind owned contents) :
    Assigns (symbol :: symbols) kind owned contents

end Symbols

/-- The owned tokens that are derived from a nonterminal, and their node. -/
inductive AssignsNode : Nonterminal → List Owned → Node → Prop
  | form {nonterminal : Nonterminal} {form : Form} (hform : form ∈ forms nonterminal)
    {owned : List Owned} {contents : Contents}
    (h : Assigns AssignsNode form.symbols form.kind owned contents)
    (hadds : isExtension form.kind = true → contents.AddsSomething) :
    AssignsNode nonterminal owned (form.node contents)

/-- The owned tokens that are derived from a document, and its node. -/
def AssignsDocument (owned : List Owned) (node : Node) : Prop :=
  ∃ definitions : List (List Owned × Node),
    definitions ≠ [] ∧ (∀ d ∈ definitions, AssignsNode .definition d.1 d.2) ∧
    (definitions.map fun d => (d.1.map Owned.token, d.2)).IsChain Separate ∧
    owned = definitions.flatMap Prod.fst ∧
    node = .mk .document (.size 0) (definitions.map fun d => (.definitions, d.2))

/-- An induction over derivations goes from the nonterminals of a form to the form's. -/
theorem AssignsNode.induct {motive : Nonterminal → List Owned → Node → Prop}
    (form : ∀ {n : Nonterminal} {form : Form}, form ∈ forms n → ∀ {owned : List Owned}
      {contents : Contents}, Assigns motive form.symbols form.kind owned contents →
      (isExtension form.kind = true → contents.AddsSomething) →
      motive n owned (form.node contents))
    {n : Nonterminal} {owned : List Owned} {node : Node} (h : AssignsNode n owned node) :
    motive n owned node := by
  refine @AssignsNode.rec (fun n owned node _ => motive n owned node)
    (fun symbols kind owned contents _ => Assigns motive symbols kind owned contents)
    (fun hform _ _ _ hadds ih => form hform ih hadds)
    .nil (fun p _ _ _ _ _ ih => .punct p ih) (fun k _ _ _ _ _ ih => .keyword k ih)
    (fun slot _ _ hname _ _ _ _ _ ih => .name slot hname ih)
    (fun hgives _ _ _ _ _ ih => .lexical hgives ih)
    (fun slot _ _ _ _ _ _ _ _ _ ihinner ih => .child slot ihinner ih)
    (fun hexpands _ _ _ _ _ ih => .expand hexpands ih) n owned node h

/-! ### Forgetting owners -/

/-- Symbols yield what the symbols do that stand for the first of them. -/
theorem Expands.yields {derives : Nonterminal → List Token → Node → Prop} {symbol : Symbol}
    {expanded : List Symbol} (hexpands : Expands symbol expanded) {symbols : List Symbol}
    {tokens : List Token} {contents : Contents}
    (h : Yields derives (expanded ++ symbols) tokens contents) :
    Yields derives (symbol :: symbols) tokens contents := by
  cases hexpands with
  | absent optional => exact .absent optional h
  | present optional => exact .present h
  | none slot n => exact .none slot n h
  | more slot n => exact .more h
  | some slot n => exact .some h
  | separated slot n delimiter => exact .separated h
  | leading slot n delimiter => exact .leading h
  | last slot n delimiter => exact .last slot n delimiter h
  | next slot n delimiter => exact .next h

/-- Without their owners, tokens that are derived from symbols are what the symbols yield. -/
theorem Assigns.yields {derives : Nonterminal → List Token → Node → Prop} {symbols : List Symbol}
    {kind : Kind} {owned : List Owned} {contents : Contents}
    (h : Assigns (fun n owned node => derives n (owned.map Owned.token) node) symbols kind owned
      contents) :
    Yields derives symbols (owned.map Owned.token) contents := by
  induction h with
  | nil => exact .nil
  | punct p _ ih => exact .punct p ih
  | keyword k _ ih => exact .keyword k ih
  | name slot hname _ ih => exact .name slot hname ih
  | lexical hgives _ ih => exact .lexical hgives ih
  | child slot hinner _ ih =>
    rw [List.map_append]
    exact .child slot hinner ih
  | expand hexpands _ ih => exact hexpands.yields ih

/-- What symbols yield can be given owners. -/
theorem Yields.exists_assigns {derives : Nonterminal → List Owned → Node → Prop}
    {symbols : List Symbol} {tokens : List Token} {contents : Contents}
    (h : Yields (fun n tokens node => ∃ owned, derives n owned node ∧ owned.map Owned.token = tokens)
      symbols tokens contents) (kind : Kind) :
    ∃ owned, Assigns derives symbols kind owned contents ∧ owned.map Owned.token = tokens := by
  have hexpand {symbol : Symbol} {expanded symbols : List Symbol} {tokens : List Token}
      {contents : Contents} (hexpands : Expands symbol expanded)
      (h : ∃ owned, Assigns derives (expanded ++ symbols) kind owned contents ∧
        owned.map Owned.token = tokens) :
      ∃ owned, Assigns derives (symbol :: symbols) kind owned contents ∧
        owned.map Owned.token = tokens :=
    h.imp fun _ h => ⟨.expand hexpands h.1, h.2⟩
  induction h with
  | nil => exact ⟨[], .nil, rfl⟩
  | punct p _ ih =>
    obtain ⟨owned, h, rfl⟩ := ih
    exact ⟨_, .punct p h, rfl⟩
  | keyword k _ ih =>
    obtain ⟨owned, h, rfl⟩ := ih
    exact ⟨_, .keyword k h, rfl⟩
  | name slot hname _ ih =>
    obtain ⟨owned, h, rfl⟩ := ih
    exact ⟨_, .name slot hname h, rfl⟩
  | lexical hgives _ ih =>
    obtain ⟨owned, h, rfl⟩ := ih
    exact ⟨_, .lexical hgives h, rfl⟩
  | child slot hinner _ ih =>
    obtain ⟨inner, hinner, rfl⟩ := hinner
    obtain ⟨owned, h, rfl⟩ := ih
    exact ⟨_, .child slot hinner h, List.map_append⟩
  | absent optional _ ih => exact hexpand (.absent optional) ih
  | present _ ih => exact hexpand (.present _) ih
  | none slot n _ ih => exact hexpand (.none slot n) ih
  | more _ ih => exact hexpand (.more _ _) ih
  | some _ ih => exact hexpand (.some _ _) ih
  | separated _ ih => exact hexpand (.separated _ _ _) ih
  | leading _ ih => exact hexpand (.leading _ _ _) ih
  | last slot n delimiter _ ih => exact hexpand (.last slot n delimiter) ih
  | next _ ih => exact hexpand (.next _ _ _) ih

/-- A node is derived from tokens if and only if it is from the tokens with some owners. -/
theorem yieldsNode_iff {n : Nonterminal} {tokens : List Token} {node : Node} :
    YieldsNode n tokens node ↔ ∃ owned, AssignsNode n owned node ∧ owned.map Owned.token = tokens := by
  constructor
  · intro h
    refine h.induct (motive := fun n tokens node =>
      ∃ owned, AssignsNode n owned node ∧ owned.map Owned.token = tokens) ?_
    intro n form hform tokens contents ih hadds
    obtain ⟨owned, h, rfl⟩ := ih.exists_assigns form.kind
    exact ⟨owned, .form hform h hadds, rfl⟩
  · rintro ⟨owned, h, rfl⟩
    exact h.induct (motive := fun n owned node => YieldsNode n (owned.map Owned.token) node)
      fun hform => fun ih hadds => .form hform ih.yields hadds

/-- A document is derived from tokens if and only if it is from the tokens with some owners. -/
theorem yieldsDocument_iff {tokens : List Token} {node : Node} :
    YieldsDocument tokens node ↔
      ∃ owned, AssignsDocument owned node ∧ owned.map Owned.token = tokens := by
  constructor
  · rintro ⟨definitions, hne, hyields, hchain, rfl, rfl⟩
    obtain ⟨owned, rfl, hassigns⟩ : ∃ owned : List (List Owned × Node),
        owned.map (fun d => (d.1.map Owned.token, d.2)) = definitions ∧
        ∀ d ∈ owned, AssignsNode .definition d.1 d.2 := by
      clear hne hchain
      induction definitions with
      | nil => exact ⟨[], rfl, by simp⟩
      | cons d definitions ih =>
        obtain ⟨hd, hdefinitions⟩ := List.forall_mem_cons.1 hyields
        obtain ⟨first, hfirst, htokens⟩ := yieldsNode_iff.1 hd
        obtain ⟨others, rfl, hothers⟩ := ih hdefinitions
        exact ⟨(first, d.2) :: others, by simp [htokens], List.forall_mem_cons.2 ⟨hfirst, hothers⟩⟩
    refine ⟨_, ⟨owned, by simpa using hne, hassigns, hchain, rfl, ?_⟩, ?_⟩
    · simp
    · simp [List.map_flatMap, List.flatMap_map]
  · rintro ⟨owned, ⟨definitions, hne, hassigns, hchain, rfl, rfl⟩, rfl⟩
    refine ⟨_, by simpa using hne, ?_, hchain, ?_, ?_⟩
    · rw [List.forall_mem_map]
      exact fun d hd => yieldsNode_iff.2 ⟨d.1, hassigns d hd, rfl⟩
    · simp [List.map_flatMap, List.flatMap_map]
    · simp

end Language

end GraphQLTree
