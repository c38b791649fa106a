import GraphQLTree.Proofs.Language.Owners

/-!
# Leaves and their tokens

The leaves of a tree that the grammar derives from owned tokens, in the order in which the tree lists its
nodes, are those of the tokens that belong to leaves (`AssignsDocument.leaves`): the symbols of every form
stand in the order of its kind's fields (`Form.IsOrdered`). The other tokens are punctuators and keywords
(`AssignsDocument.isStructural`).
-/

namespace GraphQLTree

/-- The keywords that aren't values. -/
def Keyword.structural : List Keyword :=
  [.query, .mutation, .subscription, .fragment, .onType, .schema, .scalar, .objectType,
    .interfaceType, .unionType, .enumType, .inputType, .directive, .extend, .implements, .repeatable]

/-- Whether a token is a punctuator or spelled like a keyword that isn't a value. -/
def Token.IsStructural (token : Token) : Prop :=
  (∃ p, token = .punct p) ∨ ∃ k ∈ Keyword.structural, token = .name k.text

namespace Language

/-! ### Symbols of forms -/

namespace Symbol

mutual

/-- The **plain** symbols that a symbol stands for in the end, those that are repeated once. -/
def plain : Symbol → List Symbol
  | optional symbols => plainAll symbols
  | many slot n => [child slot n]
  | some slot n => [child slot n]
  | separated slot n delimiter => [punct delimiter, child slot n]
  | delimited slot n delimiter => [punct delimiter, child slot n]
  | symbol => [symbol]

/-- The plain symbols that some symbols stand for. -/
def plainAll : List Symbol → List Symbol
  | [] => []
  | symbol :: symbols => plain symbol ++ plainAll symbols

end

/-- The slot of the child that a plain symbol gives. -/
def slot? : Symbol → Option Slot
  | name slot _ => Option.some slot
  | child slot _ => Option.some slot
  | _ => Option.none

/-- Whether a plain symbol may stand in the form of a node that is no leaf: tokens of the node's own are
structural, and a name isn't asked for as a child, since it has a symbol. -/
def isInner : Symbol → Bool
  | keyword k => k ∈ Keyword.structural
  | lexical sort => sort = .operationType || sort = .repeatable
  | child _ n => n ≠ .node .name
  | _ => true

/-- The slots of the children that symbols give. -/
def slots (symbols : List Symbol) : List Slot :=
  (plainAll symbols).filterMap slot?

theorem plainAll_append (a b : List Symbol) : plainAll (a ++ b) = plainAll a ++ plainAll b := by
  induction a with
  | nil => rfl
  | cons symbol a ih => rw [List.cons_append, plainAll, plainAll, ih, List.append_assoc]

theorem slots_cons (symbol : Symbol) (symbols : List Symbol) :
    slots (symbol :: symbols) = symbol.plain.filterMap slot? ++ slots symbols := by
  rw [slots, plainAll, List.filterMap_append]
  rfl

theorem slots_append (a b : List Symbol) : slots (a ++ b) = slots a ++ slots b := by
  rw [slots, plainAll_append, List.filterMap_append]
  rfl

end Symbol

namespace Expands

variable {symbol : Symbol} {expanded : List Symbol}

theorem plainAll_subset (h : Expands symbol expanded) : Symbol.plainAll expanded ⊆ symbol.plain := by
  cases h <;> simp [Symbol.plain, Symbol.plainAll]

theorem plainAll_append_subset (h : Expands symbol expanded) (symbols : List Symbol) :
    Symbol.plainAll (expanded ++ symbols) ⊆ Symbol.plainAll (symbol :: symbols) := by
  rw [Symbol.plainAll_append, Symbol.plainAll]
  exact List.append_subset.2 ⟨List.subset_append_of_subset_left _ h.plainAll_subset,
    List.subset_append_right ..⟩

/-- Where the slots of symbols are in order, so are those of symbols with the first of them expanded. A
slot may come twice then, so the order is reflexive. -/
theorem pairwise_slots (h : Expands symbol expanded) {R : Slot → Slot → Prop}
    (hrefl : ∀ slot, R slot slot) {symbols : List Symbol}
    (hslots : (Symbol.slots (symbol :: symbols)).Pairwise R) :
    (Symbol.slots (expanded ++ symbols)).Pairwise R := by
  rw [Symbol.slots_cons, List.pairwise_append] at hslots
  rw [Symbol.slots_append, List.pairwise_append]
  obtain ⟨hfirst, hrest, hcross⟩ := hslots
  refine ⟨?_, hrest, fun a ha => hcross a (List.filterMap_subset _ h.plainAll_subset ha)⟩
  have hpair (slot : Slot) : [slot, slot].Pairwise R := by simp [hrefl]
  cases h with
  | absent => exact .nil
  | present => exact hfirst
  | none => exact .nil
  | more slot => exact hpair slot
  | some slot => exact hpair slot
  | separated slot => exact hpair slot
  | leading slot => exact hpair slot
  | last => exact .nil
  | next slot => exact hpair slot

end Expands

/-- The slots of the children that are derived from symbols are those of the symbols, in their order. -/
theorem Assigns.slots_children {derives : Nonterminal → List Owned → Node → Prop}
    {R : Slot → Slot → Prop} (hrefl : ∀ slot, R slot slot) {symbols : List Symbol} {kind : Kind}
    {owned : List Owned} {contents : Contents} (h : Assigns derives symbols kind owned contents)
    (hslots : (Symbol.slots symbols).Pairwise R) :
    (contents.children.map Prod.fst).Pairwise R ∧
      contents.children.map Prod.fst ⊆ Symbol.slots symbols := by
  -- A slot that is in order with all slots of the symbols behind it is so with those of the children.
  have hcons {slot : Slot} {slots children : List Slot} (hslots : (slot :: slots).Pairwise R)
      (ih : slots.Pairwise R → children.Pairwise R ∧ children ⊆ slots) :
      (slot :: children).Pairwise R ∧ slot :: children ⊆ slot :: slots := by
    obtain ⟨hfirst, hrest⟩ := List.pairwise_cons.1 hslots
    obtain ⟨hchildren, hsub⟩ := ih hrest
    exact ⟨.cons (fun other hother => hfirst other (hsub hother)) hchildren,
      List.cons_subset_cons slot hsub⟩
  induction h with
  | nil => exact ⟨.nil, List.nil_subset _⟩
  | punct p _ ih => exact ih hslots
  | keyword k _ ih => exact ih hslots
  | name slot hname _ ih => exact hcons hslots ih
  | lexical hgives _ ih => exact ih hslots
  | child slot hinner _ ih => exact hcons hslots ih
  | expand hexpands _ ih =>
    obtain ⟨hchildren, hsub⟩ := ih (hexpands.pairwise_slots hrefl hslots)
    exact ⟨hchildren, List.Subset.trans hsub
      (List.filterMap_subset _ (hexpands.plainAll_append_subset _))⟩

namespace Form

/-- Whether the symbols of a form stand in the order of its kind's fields, and its own tokens are
structural if its nodes aren't leaves. -/
structure IsOrdered (form : Form) : Prop where
  slots_subset : ∀ slot ∈ Symbol.slots form.symbols, slot ∈ form.kind.slots
  pairwise_slots : (Symbol.slots form.symbols).Pairwise fun a b =>
    form.kind.slots.idxOf a ≤ form.kind.slots.idxOf b
  isInner : form.kind.isLeaf = false →
    ∀ symbol ∈ Symbol.plainAll form.symbols, symbol.isInner = true

instance (form : Form) : Decidable form.IsOrdered :=
  decidable_of_iff
    ((∀ slot ∈ Symbol.slots form.symbols, slot ∈ form.kind.slots) ∧
      ((Symbol.slots form.symbols).Pairwise fun a b =>
        form.kind.slots.idxOf a ≤ form.kind.slots.idxOf b) ∧
      (form.kind.isLeaf = false →
        ∀ symbol ∈ Symbol.plainAll form.symbols, symbol.isInner = true))
    ⟨fun ⟨slots_subset, pairwise_slots, isInner⟩ => ⟨slots_subset, pairwise_slots, isInner⟩,
      fun h => ⟨h.slots_subset, h.pairwise_slots, h.isInner⟩⟩

/-- Every form once. -/
def all : List Form :=
  Kind.all.map ofKind ++ [.query] ++ forms .interfaces ++ forms .unionMembers ++
    forms .argumentDefinitions

theorem ofKind_mem_all (kind : Kind) : ofKind kind ∈ all := by
  simp only [all, List.mem_append]
  exact .inl (.inl (.inl (.inl (List.mem_map_of_mem kind.mem_all))))

theorem mem_all {n : Nonterminal} {form : Form} (h : form ∈ forms n) : form ∈ all := by
  have hkinds (kinds : List Kind) (h : form ∈ kinds.map ofKind) : form ∈ all := by
    obtain ⟨kind, -, rfl⟩ := List.mem_map.1 h
    exact ofKind_mem_all kind
  cases n with
  | node kind => exact hkinds [kind] h
  | query => simp [all, List.mem_singleton.1 h]
  | interfaces => simp [all, h]
  | unionMembers => simp [all, h]
  | argumentDefinitions => simp [all, h]
  | value family => exact hkinds (values family) h
  | selection => exact hkinds [.field, .fragmentSpread, .inlineFragment] h
  | type => exact hkinds [.namedType, .listType, .nonNullType] h
  | nullableType => exact hkinds [.namedType, .listType] h
  | directiveLocation => exact hkinds [.executableLocation, .typeSystemLocation] h
  | definition =>
    rcases List.mem_cons.1 h with rfl | h
    · simp [all]
    · exact hkinds definitions h

theorem isOrdered {n : Nonterminal} {form : Form} (h : form ∈ forms n) : form.IsOrdered := by
  have hall : ∀ form ∈ all, form.IsOrdered := by decide +kernel
  exact hall form (mem_all h)

/-- Leaves are written by the form of their kind. -/
theorem eq_ofKind {n : Nonterminal} {form : Form} (h : form ∈ forms n)
    (hleaf : form.kind.isLeaf = true) : form = .ofKind form.kind := by
  have hmem := mem_all h
  simp only [all, List.mem_append] at hmem
  rcases hmem with (((hmem | hmem) | hmem) | hmem) | hmem
  · obtain ⟨kind, -, rfl⟩ := List.mem_map.1 hmem
    rfl
  all_goals
    obtain rfl := List.mem_singleton.1 hmem
    cases hleaf

end Form

/-! ### Leaves of nodes -/

/-- The leaves below a node that is no leaf itself are what its tokens belong to. -/
theorem Assigns.leaves_children {symbols : List Symbol} {kind : Kind} {owned : List Owned}
    {contents : Contents} (h : Assigns (fun n owned node =>
      n ≠ .node .name → node.leaves = owned.filter (·.owner.isLeaf)) symbols kind owned contents)
    (hkind : kind.isLeaf = false)
    (hinner : ∀ symbol ∈ Symbol.plainAll symbols, symbol.isInner = true) :
    (contents.children.flatMap fun entry => entry.2.leaves) = owned.filter (·.owner.isLeaf) := by
  induction h with
  | nil => rfl
  | punct p _ ih =>
    rw [List.filter_cons_of_neg (by simp [hkind])]
    exact ih hkind (List.forall_mem_cons.1 hinner).2
  | keyword k _ ih =>
    rw [List.filter_cons_of_neg (by simp [hkind])]
    exact ih hkind (List.forall_mem_cons.1 hinner).2
  | name slot hname _ ih =>
    rw [List.filter_cons_of_pos rfl, List.flatMap_cons, Node.leaves_ofName,
      ih hkind (List.forall_mem_cons.1 hinner).2, List.singleton_append]
  | lexical hgives _ ih =>
    rw [List.filter_cons_of_neg (by simp [hkind])]
    exact ih hkind (List.forall_mem_cons.1 hinner).2
  | child slot hnode _ ih =>
    obtain ⟨hchild, hinner⟩ := List.forall_mem_cons.1 hinner
    rw [List.filter_append, List.flatMap_cons, ih hkind hinner,
      hnode (by simpa [Symbol.isInner] using hchild)]
  | expand hexpands _ ih =>
    exact ih hkind fun symbol hsymbol => hinner symbol (hexpands.plainAll_append_subset _ hsymbol)

/-- A leaf that is written by one symbol has one token, which belongs to it. -/
theorem Assigns.leaves_lexical {derives : Nonterminal → List Owned → Node → Prop} {sort : Lexical}
    {kind : Kind} {owned : List Owned} {contents : Contents}
    (h : Assigns derives [.lexical sort] kind owned contents) (hkind : kind.isLeaf = true)
    (hleaf : ∀ {token atom}, sort.Gives token atom →
      ((Form.ofKind kind).node ⟨[], [atom]⟩).leaves = [⟨token, kind⟩]) :
    ((Form.ofKind kind).node contents).leaves = owned.filter (·.owner.isLeaf) := by
  cases h with
  | lexical hgives h =>
    cases h
    simp [hleaf hgives, hkind]
  | expand hexpands => cases hexpands

/-- The only token of a leaf belongs to it. -/
theorem Assigns.leaves_ofKind {derives : Nonterminal → List Owned → Node → Prop} {kind : Kind}
    {owned : List Owned} {contents : Contents}
    (h : Assigns derives (symbolsOf kind) kind owned contents) (hkind : kind.isLeaf = true)
    (hname : kind ≠ .name) :
    ((Form.ofKind kind).node contents).leaves = owned.filter (·.owner.isLeaf) := by
  cases kind with
  | name => exact absurd rfl hname
  | intValue => exact h.leaves_lexical rfl fun hgives => by cases hgives; rfl
  | floatValue => exact h.leaves_lexical rfl fun hgives => by cases hgives; rfl
  | stringValue => exact h.leaves_lexical rfl fun hgives => by cases hgives <;> rfl
  | booleanValue => exact h.leaves_lexical rfl fun hgives => by cases hgives <;> rfl
  | nullValue =>
    cases h with
    | keyword _ h =>
      cases h
      rfl
    | expand hexpands => cases hexpands
  | enumValue => exact h.leaves_lexical rfl fun hgives => by cases hgives; rfl
  | executableLocation => exact h.leaves_lexical rfl fun hgives => by cases hgives; rfl
  | typeSystemLocation => exact h.leaves_lexical rfl fun hgives => by cases hgives; rfl
  | _ => cases hkind

/-- The form of names is that of one nonterminal only. -/
theorem Form.kind_ne_name {n : Nonterminal} (hn : n ≠ .node .name) {form : Form}
    (hform : form ∈ forms n) : form.kind ≠ .name := by
  have hforms : ∀ n ∈ [Nonterminal.query, .interfaces, .unionMembers, .argumentDefinitions,
      .value .general, .value .constant, .selection, .type, .nullableType, .directiveLocation,
      .definition], ∀ form ∈ forms n, form.kind ≠ .name := by
    decide
  cases n with
  | node kind =>
    obtain rfl := List.mem_singleton.1 hform
    exact fun hkind => hn (congrArg Nonterminal.node hkind)
  | value family => exact hforms (.value family) (by cases family <;> simp) form hform
  | _ => exact hforms _ (by simp) form hform

/-- The leaves of what is derived from a nonterminal are what its tokens belong to. -/
theorem AssignsNode.leaves {n : Nonterminal} {owned : List Owned} {node : Node}
    (h : AssignsNode n owned node) (hn : n ≠ .node .name) :
    node.leaves = owned.filter (·.owner.isLeaf) := by
  refine h.induct (motive := fun n owned node =>
    n ≠ .node .name → node.leaves = owned.filter (·.owner.isLeaf)) ?_ hn
  intro n form hform owned contents ih _ hn
  cases hkind : form.kind.isLeaf with
  | true =>
    have hne := Form.kind_ne_name hn hform
    rw [Form.eq_ofKind hform hkind] at ih ⊢
    exact ih.leaves_ofKind hkind hne
  | false =>
    have hordered := Form.isOrdered hform
    obtain ⟨hpairwise, hsub⟩ := ih.slots_children (fun _ => Nat.le_refl _) hordered.pairwise_slots
    have horder := List.pairwise_map.1 hpairwise
    have harrange : Node.arrange form.kind contents.children = contents.children :=
      Node.arrange_eq_self
        (fun entry hentry => hordered.slots_subset _ (hsub (List.mem_map_of_mem hentry))) horder
    rw [Form.node, Node.leaves_mk, harrange, ih.leaves_children hkind (hordered.isInner hkind)]
    simp [Node.leavesOf, Node.kind, hkind]

/-! ### Other tokens -/

theorem Lexical.Gives.isStructural {sort : Lexical} {token : Token} {atom : Atom}
    (h : sort.Gives token atom) (hsort : (Symbol.lexical sort).isInner = true) :
    token.IsStructural := by
  cases h with
  | operationType operation =>
    cases operation with
    | query => exact .inr ⟨.query, by decide, rfl⟩
    | mutation => exact .inr ⟨.mutation, by decide, rfl⟩
    | subscription => exact .inr ⟨.subscription, by decide, rfl⟩
  | repeatable => exact .inr ⟨.repeatable, by decide, rfl⟩
  | _ => cases hsort

/-- The tokens that belong to no leaf are structural if the own ones are. -/
theorem Assigns.isStructural {symbols : List Symbol} {kind : Kind} {owned : List Owned}
    {contents : Contents} (h : Assigns (fun _ owned _ =>
      ∀ o ∈ owned, o.owner.isLeaf = false → o.token.IsStructural) symbols kind owned contents)
    (hinner : kind.isLeaf = false → ∀ symbol ∈ Symbol.plainAll symbols, symbol.isInner = true) :
    ∀ o ∈ owned, o.owner.isLeaf = false → o.token.IsStructural := by
  induction h with
  | nil => simp
  | punct p _ ih =>
    refine List.forall_mem_cons.2 ⟨fun _ => .inl ⟨p, rfl⟩, ih fun hkind => ?_⟩
    exact (List.forall_mem_cons.1 (hinner hkind)).2
  | keyword k _ ih =>
    refine List.forall_mem_cons.2 ⟨fun hkind => ?_, ih fun hkind => ?_⟩
    · have hk := (List.forall_mem_cons.1 (hinner hkind)).1
      exact .inr ⟨k, of_decide_eq_true hk, rfl⟩
    · exact (List.forall_mem_cons.1 (hinner hkind)).2
  | name slot hname _ ih =>
    refine List.forall_mem_cons.2 ⟨by simp [Kind.isLeaf], ih fun hkind => ?_⟩
    exact (List.forall_mem_cons.1 (hinner hkind)).2
  | lexical hgives _ ih =>
    refine List.forall_mem_cons.2 ⟨fun hkind => ?_, ih fun hkind => ?_⟩
    · exact hgives.isStructural (List.forall_mem_cons.1 (hinner hkind)).1
    · exact (List.forall_mem_cons.1 (hinner hkind)).2
  | child slot hnode _ ih =>
    refine List.forall_mem_append.2 ⟨hnode, ih fun hkind => ?_⟩
    exact (List.forall_mem_cons.1 (hinner hkind)).2
  | expand hexpands _ ih =>
    exact ih fun hkind symbol hsymbol =>
      hinner hkind symbol (hexpands.plainAll_append_subset _ hsymbol)

/-- The tokens that belong to no leaf are punctuators and keywords. -/
theorem AssignsNode.isStructural {n : Nonterminal} {owned : List Owned} {node : Node}
    (h : AssignsNode n owned node) :
    ∀ o ∈ owned, o.owner.isLeaf = false → o.token.IsStructural :=
  h.induct (motive := fun _ owned _ =>
      ∀ o ∈ owned, o.owner.isLeaf = false → o.token.IsStructural)
    fun hform => fun ih _ => ih.isStructural (Form.isOrdered hform).isInner

/-! ### Documents -/

namespace AssignsDocument

variable {owned : List Owned} {node : Node} (h : AssignsDocument owned node)
include h

/-- The leaves of a document are what its tokens belong to. -/
theorem leaves : node.leaves = owned.filter (·.owner.isLeaf) := by
  obtain ⟨definitions, -, hassigns, -, rfl, rfl⟩ := h
  rw [Node.leaves_mk, List.flatMap_map, List.filter_flatMap]
  exact List.flatMap_congr fun d hd => (hassigns d hd).leaves (by simp)

/-- The tokens of a document that belong to no leaf are punctuators and keywords. -/
theorem isStructural : ∀ o ∈ owned, o.owner.isLeaf = false → o.token.IsStructural := by
  obtain ⟨definitions, -, hassigns, -, rfl, -⟩ := h
  intro o ho
  obtain ⟨d, hd, ho⟩ := List.mem_flatMap.1 ho
  exact (hassigns d hd).isStructural o ho

end AssignsDocument

end Language

end GraphQLTree
