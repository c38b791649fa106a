import GraphQLTree.Proofs.Grammar.Productions
import GraphQLTree.Proofs.Grammar.Shape

/-!
# Derivations

A **derivation** says how some words make a node: which production the node is written by, which of
the words are its own and which make its children. It is a tree without any lookahead, so it says
nothing about how a reader finds it. A derivation also has the **pieces** that the node is printed
as.

Words are **marked** when they are spare. There are two kinds of spare words: a delimiter before the
first of some children, and the keyword of a query that is nothing but a selection set.
-/

namespace GraphQLTree

/-- A word of a text that is read, and whether it is left out when the node is written. -/
structure Mark where
  word : Word
  spare : Bool
  deriving DecidableEq

/-- A child: the words that make it, the pieces that it is printed as, and the node. -/
structure Child where
  marks : List Mark
  pieces : List Piece
  node : Node

/-- One step of a node's text. -/
inductive Element where
  | space (piece : Piece)
  | own (slot : Slot) (word : Word) (spare : Bool) (gift : Gift)
  | child (slot : Slot) (goal : Goal) (child : Child)

/-- Comments on lines of their own. -/
def leadingPieces (comments : List Comment) : List Piece :=
  comments.map fun comment => .leading comment.text

/-- Puts comments around pieces. The last one stays behind them if it is an inline comment and `own`
says that they end in a token that it can belong to. -/
def around (comments : List Comment) (body : List Piece) (own : Bool) : List Piece :=
  match own, comments.getLast? with
  | true, some ⟨true, text⟩ => leadingPieces comments.dropLast ++ body ++ [.trailing text]
  | _, _ => leadingPieces comments ++ body

namespace Element

/-- What a rule says about an element. -/
def shape : Element → Shape
  | space piece => .space piece
  | own slot word spare gift => .own slot word.token spare gift
  | child slot goal _ => .child slot goal

/-- The words of an element. -/
def marks : Element → List Mark
  | space _ => []
  | own _ word spare _ => [⟨word, spare⟩]
  | child _ _ c => c.marks

/-- The children that an element gives the node. -/
def entries : Element → List (Slot × Node)
  | space _ => []
  | own slot word _ gift => Node.ofComments slot word.comments ++ gift.entries
  | child slot _ c => [(slot, c.node)]

/-- The comments that an element adds to those around the node. -/
def comments : Element → List Comment
  | own .comments word _ _ => word.comments
  | _ => []

/-- The pieces of an element: a bracket has its comments around it. -/
def pieces : Element → List Piece
  | space piece => [piece]
  | own _ _ true _ => []
  | own .comments word false _ => [.token word.token]
  | own _ word false _ => around word.comments [.token word.token] true
  | child _ _ c => c.pieces

end Element

namespace Elements

/-- The words of elements. -/
def marks (elements : List Element) : List Mark :=
  elements.flatMap Element.marks

/-- The children that elements give the node. -/
def entries (elements : List Element) : List (Slot × Node) :=
  elements.flatMap Element.entries

/-- The comments around the node. -/
def comments (elements : List Element) : List Comment :=
  elements.flatMap Element.comments

/-- The pieces of elements. -/
def pieces (elements : List Element) : List Piece :=
  elements.flatMap Element.pieces

/-- What a rule says about elements. -/
def shapes (elements : List Element) : List Shape :=
  elements.map Element.shape

end Elements

namespace Shape

/-- Whether shapes end in an own token. -/
def endsOwn : List Shape → Bool
  | [] => false
  | [own _ _ spare _] => !spare
  | [_] => false
  | _ :: rest => endsOwn rest

/-- The slot of the child that a shape gives, other than comments. -/
def slot? : Shape → Option Slot
  | own _ _ _ (.name slot _) => some slot
  | child slot _ => some slot
  | _ => none

/-- The slots of the children that shapes give, other than comments. -/
def slots (shapes : List Shape) : List Slot :=
  shapes.filterMap slot?

theorem slots_append (a b : List Shape) : slots (a ++ b) = slots a ++ slots b :=
  List.filterMap_append

/-- Whether shapes give a child besides comments and the name. -/
def hasParts (shapes : List Shape) : Bool :=
  (slots shapes).any fun slot => !slot.holdsComments && slot != .name

/-- The atom that shapes give. -/
def atom? : List Shape → Option Atom
  | [] => none
  | own _ _ _ (.atom a) :: rest => (atom? rest).or (some a)
  | _ :: rest => atom? rest

/-- Whether shapes of an operation are those of a query with a selection set alone. -/
def isShorthand (shapes : List Shape) : Bool :=
  GraphQLTree.isShorthand ((atom? shapes).getD .none) (slots shapes)

end Shape

namespace Production

/-- Whether an extension has to add something. -/
def demands (production : Production) : Bool :=
  production.rule.items.any fun item => item matches .part (.demand _)

/-- The node that a production makes of elements. -/
def finish (production : Production) (elements : List Element) : Node :=
  .mk production.kind ((Shape.atom? (Elements.shapes elements)).getD production.rule.start)
    (Node.arrange production.kind (Elements.entries elements))

end Production

/-- The element of a description, which has a line of its own in pretty text. -/
def descriptionElements : Option Child → List Element
  | some child => [.child .description (.kind .stringValue) child, .space (.lines 0 1)]
  | none => []

theorem mem_descriptionElements {description : Option Child} {slot : Slot} {goal : Goal}
    {c : Child} (h : .child slot goal c ∈ descriptionElements description) :
    slot = .description ∧ goal = .kind .stringValue ∧ c ∈ description := by
  cases description with
  | none => cases h
  | some d =>
    simp only [descriptionElements, List.mem_cons, Element.child.injEq, reduceCtorEq,
      List.not_mem_nil, or_false] at h
    obtain ⟨rfl, rfl, rfl⟩ := h
    exact ⟨rfl, rfl, rfl⟩

/-- The mark of the keyword of a query that is written as its selection set alone. -/
def queryMark (comments : List Comment) : Mark :=
  ⟨⟨.name Keyword.query.text, comments⟩, true⟩

/-- How words make a node for a goal, and the pieces that the node is printed as. -/
inductive Derives : Goal → List Mark → List Piece → Node → Prop
  /-- A node written by the rule of a production. -/
  | production {goal : Goal} {p : Production} {description : Option Child}
    {elements : List Element} (hgoal : p ∈ goal.productions) (hreadable : p.isReadable = true)
    (hdescribed : description.isSome = true → p.rule.described = true)
    (hspells : SpellItems p.rule.items (Elements.shapes elements))
    (hdemand : p.demands = true → Shape.hasParts (Elements.shapes elements) = true)
    (hquery : p = .of .operationDefinition → Shape.isShorthand (Elements.shapes elements) = false)
    (hdescription : ∀ child ∈ description,
      Derives (.kind .stringValue) child.marks child.pieces child.node)
    (hchildren : ∀ slot subgoal child, .child slot subgoal child ∈ elements →
      Derives subgoal child.marks child.pieces child.node) :
    Derives goal (Elements.marks (descriptionElements description ++ elements))
      (Elements.pieces (descriptionElements description) ++
        around (Elements.comments elements) (Elements.pieces elements)
          (Shape.endsOwn (Elements.shapes elements)))
      (p.finish (descriptionElements description ++ elements))
  /-- A query that is nothing but a selection set, with its keyword. -/
  | query {goal : Goal} {child : Child} (comments : List Comment)
    (hgoal : .of .operationDefinition ∈ goal.productions)
    (hshorthand : .shorthand ∈ goal.productions)
    (hchild : Derives (.kind .selectionSet) child.marks child.pieces child.node) :
    Derives goal (queryMark comments :: child.marks) (leadingPieces comments ++ child.pieces)
      (.mk .operationDefinition (.operation .query)
        (Node.ofComments .comments comments ++ [(.selectionSet, child.node)]))
  /-- A type with an exclamation mark. -/
  | nonNull {marks : List Mark} {pieces : List Piece} {node : Node} (comments : List Comment)
    (h : Derives .type marks pieces node) (hkind : node.kind ≠ .nonNullType) :
    Derives .type (marks ++ [⟨⟨.punct .exclamation, comments⟩, false⟩])
      (pieces ++ around comments [.token (.punct .exclamation)] true)
      (.mk .nonNullType .none (Node.ofComments .comments comments ++ [(.type, node)]))

/-! ### Elements of repeated children -/

namespace Element

/-- A child that a derivation is known of. -/
def Derived : Element → Prop
  | child _ goal c => Derives goal c.marks c.pieces c.node
  | _ => True

/-- The same kind of elements for each of some things. -/
def listedTail (slot : Slot) (goal : Goal) (children : List Child) : List Element :=
  children.flatMap fun c => [space .comma, child slot goal c]

/-- The elements of a list of children. -/
def listed (slot : Slot) (goal : Goal) (padded : Bool) : List Child → List Element
  | [] => []
  | c :: children =>
    let padding := if padded then [space .soft] else []
    padding ++ child slot goal c :: listedTail slot goal children ++ padding

/-- The elements of children with a space before each. -/
def repeated (slot : Slot) (goal : Goal) (children : List Child) : List Element :=
  children.flatMap fun c => [space .soft, child slot goal c]

/-- The elements of a delimiter and the child behind it. -/
def delimited (slot : Slot) (goal : Goal) (word : Word) (c : Child) : List Element :=
  [space .soft, own .comments word false .nothing, space .soft, child slot goal c]

/-- The elements of children with delimiters between them. -/
def separated (slot : Slot) (goal : Goal) (first : Child) (rest : List (Word × Child)) :
    List Element :=
  child slot goal first :: rest.flatMap fun next => delimited slot goal next.1 next.2

end Element

attribute [simp] Element.shape Element.marks Element.entries Element.pieces Gift.entries

namespace Elements

@[simp] theorem shapes_nil : shapes [] = [] := rfl

@[simp] theorem marks_nil : marks [] = [] := rfl

@[simp] theorem entries_nil : entries [] = [] := rfl

@[simp] theorem comments_nil : comments [] = [] := rfl

@[simp] theorem pieces_nil : pieces [] = [] := rfl

@[simp] theorem shapes_cons (e : Element) (es : List Element) :
    shapes (e :: es) = e.shape :: shapes es := rfl

@[simp] theorem marks_cons (e : Element) (es : List Element) :
    marks (e :: es) = e.marks ++ marks es := rfl

@[simp] theorem entries_cons (e : Element) (es : List Element) :
    entries (e :: es) = e.entries ++ entries es := rfl

@[simp] theorem comments_cons (e : Element) (es : List Element) :
    comments (e :: es) = e.comments ++ comments es := rfl

@[simp] theorem pieces_cons (e : Element) (es : List Element) :
    pieces (e :: es) = e.pieces ++ pieces es := rfl

@[simp] theorem shapes_append (a b : List Element) : shapes (a ++ b) = shapes a ++ shapes b :=
  List.map_append

@[simp] theorem marks_append (a b : List Element) : marks (a ++ b) = marks a ++ marks b :=
  List.flatMap_append

@[simp] theorem entries_append (a b : List Element) : entries (a ++ b) = entries a ++ entries b :=
  List.flatMap_append

@[simp] theorem comments_append (a b : List Element) :
    comments (a ++ b) = comments a ++ comments b :=
  List.flatMap_append

@[simp] theorem pieces_append (a b : List Element) : pieces (a ++ b) = pieces a ++ pieces b :=
  List.flatMap_append

end Elements

theorem Shape.atom?_append (a b : List Shape) :
    Shape.atom? (a ++ b) = (Shape.atom? b).or (Shape.atom? a) := by
  induction a with
  | nil => simp [Shape.atom?]
  | cons shape a ih =>
    cases shape with
    | own slot token spare gift =>
      cases gift <;> simp [Shape.atom?, ih]
    | _ => simp [Shape.atom?, ih]

theorem Shape.atom?_times {step : List Shape} (h : Shape.atom? step = none) (n : Nat) :
    Shape.atom? (Shape.times step n) = none := by
  induction n with
  | zero => rfl
  | succ n ih => rw [Shape.times, Shape.atom?_append, ih, h]; rfl

theorem Shape.atom?_listed (slot : Slot) (goal : Goal) (padded : Bool) (n : Nat) :
    Shape.atom? (Shape.listed slot goal padded n) = none := by
  cases n with
  | zero => rfl
  | succ n =>
    have htimes : Shape.atom? (Shape.times [.space .comma, .child slot goal] n) = none :=
      Shape.atom?_times rfl n
    cases padded <;> simp [Shape.listed, Shape.atom?, Shape.atom?_append, htimes]

theorem Shape.atom?_separated (slot : Slot) (goal : Goal) (delimiter : Punctuator) (n : Nat) :
    Shape.atom? (Shape.separated slot goal delimiter n) = none := by
  rw [Shape.separated, ← List.singleton_append, Shape.atom?_append, Shape.atom?_times rfl]
  rfl

namespace Element

/-- The shapes of elements that are repeated for each of some things. -/
theorem shapes_flatMap {α : Type} {step : List Shape} {f : α → List Element}
    (h : ∀ a, Elements.shapes (f a) = step) (as : List α) :
    Elements.shapes (as.flatMap f) = Shape.times step as.length := by
  induction as with
  | nil => rfl
  | cons a as ih => rw [List.flatMap_cons, Elements.shapes_append, h, ih]; rfl

/-- The words of elements that are repeated for each of some things. -/
theorem marks_flatMap {α : Type} {f : α → List Element} {g : α → List Mark}
    (h : ∀ a, Elements.marks (f a) = g a) (as : List α) :
    Elements.marks (as.flatMap f) = as.flatMap g := by
  induction as with
  | nil => rfl
  | cons a as ih => rw [List.flatMap_cons, Elements.marks_append, h, ih]; rfl

/-- The children of elements that are repeated for each of some things. -/
theorem entries_flatMap {α : Type} {f : α → List Element} {g : α → List (Slot × Node)}
    (h : ∀ a, Elements.entries (f a) = g a) (as : List α) :
    Elements.entries (as.flatMap f) = as.flatMap g := by
  induction as with
  | nil => rfl
  | cons a as ih => rw [List.flatMap_cons, Elements.entries_append, h, ih]; rfl

variable (slot : Slot) (goal : Goal)

@[simp] theorem shapes_listedTail (children : List Child) :
    Elements.shapes (listedTail slot goal children) =
      Shape.times [.space .comma, .child slot goal] children.length :=
  shapes_flatMap (fun _ => by simp) children

@[simp] theorem marks_listedTail (children : List Child) :
    Elements.marks (listedTail slot goal children) = children.flatMap Child.marks :=
  marks_flatMap (fun _ => by simp) children

@[simp] theorem entries_listedTail (children : List Child) :
    Elements.entries (listedTail slot goal children) =
      children.map fun c => (slot, c.node) := by
  rw [listedTail, entries_flatMap (fun _ => rfl), List.map_eq_flatMap]
  rfl

theorem shapes_listed (padded : Bool) (children : List Child) :
    Elements.shapes (listed slot goal padded children) =
      Shape.listed slot goal padded children.length := by
  cases children with
  | nil => rfl
  | cons c children => cases padded <;> simp [listed, Shape.listed]

theorem marks_listed (padded : Bool) (children : List Child) :
    Elements.marks (listed slot goal padded children) = children.flatMap Child.marks := by
  cases children with
  | nil => rfl
  | cons c children => cases padded <;> simp [listed]

theorem entries_listed (padded : Bool) (children : List Child) :
    Elements.entries (listed slot goal padded children) =
      children.map fun c => (slot, c.node) := by
  cases children with
  | nil => rfl
  | cons c children => cases padded <;> simp [listed]

theorem shapes_repeated (children : List Child) :
    Elements.shapes (repeated slot goal children) =
      Shape.repeated slot goal children.length :=
  shapes_flatMap (fun _ => by simp) children

theorem marks_repeated (children : List Child) :
    Elements.marks (repeated slot goal children) = children.flatMap Child.marks :=
  marks_flatMap (fun _ => by simp) children

theorem entries_repeated (children : List Child) :
    Elements.entries (repeated slot goal children) =
      children.map fun c => (slot, c.node) := by
  rw [repeated, entries_flatMap (fun _ => rfl), List.map_eq_flatMap]
  rfl

theorem marks_separated (first : Child) (rest : List (Word × Child)) :
    Elements.marks (separated slot goal first rest) =
      first.marks ++ rest.flatMap fun next => ⟨next.1, false⟩ :: next.2.marks := by
  rw [separated, Elements.marks_cons, marks_flatMap (fun _ => by simp [delimited]; rfl)]
  rfl

theorem entries_separated (first : Child) (rest : List (Word × Child)) :
    Elements.entries (separated slot goal first rest) =
      [(slot, first.node)] ++ rest.flatMap fun next =>
        Node.ofComments .comments next.1.comments ++ [(slot, next.2.node)] := by
  rw [separated, Elements.entries_cons, entries_flatMap (fun _ => by simp [delimited]; rfl)]
  rfl

theorem shapes_separated {delimiter : Punctuator} (first : Child) {rest : List (Word × Child)}
    (h : ∀ next ∈ rest, next.1.token = .punct delimiter) :
    Elements.shapes (separated slot goal first rest) =
      Shape.separated slot goal delimiter rest.length := by
  have htail : Elements.shapes (rest.flatMap fun next => delimited slot goal next.1 next.2) =
      Shape.times [.space .soft, .plain (.punct delimiter), .space .soft, .child slot goal]
        rest.length := by
    induction rest with
    | nil => rfl
    | cons next rest ih =>
      rw [List.flatMap_cons, Elements.shapes_append, ih fun n hn => h n (by simp [hn])]
      simp [delimited, h next (by simp), Shape.times, Shape.plain]
  rw [separated, Elements.shapes_cons, htail]
  rfl

theorem mem_listed (padded : Bool) {children : List Child} {c : Child} (h : c ∈ children) :
    child slot goal c ∈ listed slot goal padded children := by
  cases children with
  | nil => cases h
  | cons d children =>
    rcases List.mem_cons.1 h with rfl | h
    · simp [listed]
    · have htail : child slot goal c ∈ listedTail slot goal children :=
        List.mem_flatMap.2 ⟨c, h, by simp⟩
      simp [listed, htail]

theorem mem_repeated {children : List Child} {c : Child} (h : c ∈ children) :
    child slot goal c ∈ repeated slot goal children :=
  List.mem_flatMap.2 ⟨c, h, by simp⟩

theorem mem_separated {first : Child} {rest : List (Word × Child)} {c : Child}
    (h : c ∈ first :: rest.map Prod.snd) :
    child slot goal c ∈ separated slot goal first rest := by
  rcases List.mem_cons.1 h with rfl | h
  · exact List.mem_cons_self
  · obtain ⟨next, hn, rfl⟩ := List.mem_map.1 h
    exact List.mem_cons_of_mem _ (List.mem_flatMap.2 ⟨next, hn, by simp [delimited]⟩)

theorem derived_listed {goal : Goal} {children : List Child}
    (h : ∀ child ∈ children, Derives goal child.marks child.pieces child.node) (padded : Bool) :
    ∀ element ∈ listed slot goal padded children, element.Derived := by
  intro element he
  have hmem : (∃ piece, element = .space piece) ∨
      ∃ c ∈ children, element = .child slot goal c := by
    cases children with
    | nil => cases he
    | cons c children =>
      cases padded <;>
        simp only [listed, listedTail, List.mem_append, List.mem_cons, List.mem_flatMap,
          List.not_mem_nil, or_false, false_or, if_true, Bool.false_eq_true, if_false] at he <;>
        grind
  rcases hmem with ⟨piece, rfl⟩ | ⟨c, hc, rfl⟩
  · trivial
  · exact h c hc

theorem derived_repeated {goal : Goal} {children : List Child}
    (h : ∀ child ∈ children, Derives goal child.marks child.pieces child.node) :
    ∀ element ∈ repeated slot goal children, element.Derived := by
  intro element he
  simp only [repeated, List.mem_flatMap, List.mem_cons, List.not_mem_nil, or_false] at he
  obtain ⟨c, hc, rfl | rfl⟩ := he
  · trivial
  · exact h c hc

theorem derived_separated {goal : Goal} {first : Child} {rest : List (Word × Child)}
    (hfirst : Derives goal first.marks first.pieces first.node)
    (hrest : ∀ next ∈ rest, Derives goal next.2.marks next.2.pieces next.2.node) :
    ∀ element ∈ separated slot goal first rest, element.Derived := by
  intro element he
  simp only [separated, delimited, List.mem_flatMap, List.mem_cons, List.not_mem_nil,
    or_false] at he
  rcases he with rfl | ⟨next, hn, rfl | rfl | rfl | rfl⟩
  · exact hfirst
  · trivial
  · trivial
  · trivial
  · exact hrest next hn

end Element

/-! ### Elements of some shapes -/

namespace Elements

theorem eq_own_of_shapes {elements : List Element} {slot : Slot} {token : Token} {spare : Bool}
    {gift : Gift} (h : shapes elements = [.own slot token spare gift]) :
    ∃ comments, elements = [.own slot ⟨token, comments⟩ spare gift] := by
  obtain ⟨element, rfl, he⟩ := List.map_eq_singleton_iff.1 h
  cases element with
  | own slot' word spare' gift' =>
    cases word
    cases he
    exact ⟨_, rfl⟩
  | _ => cases he

theorem eq_space_of_shapes {elements : List Element} {piece : Piece}
    (h : shapes elements = [.space piece]) : elements = [.space piece] := by
  obtain ⟨element, rfl, he⟩ := List.map_eq_singleton_iff.1 h
  cases element with
  | space piece' =>
    cases he
    rfl
  | _ => cases he

theorem eq_child_of_shapes {elements : List Element} {slot : Slot} {goal : Goal}
    (h : shapes elements = [.child slot goal]) : ∃ c, elements = [.child slot goal c] := by
  obtain ⟨element, rfl, he⟩ := List.map_eq_singleton_iff.1 h
  cases element with
  | child slot' goal' c =>
    cases he
    exact ⟨c, rfl⟩
  | _ => cases he

/-- Elements of two lists of shapes are two lists of elements. -/
theorem exists_append_of_shapes {elements : List Element} {a b : List Shape}
    (h : shapes elements = a ++ b) :
    ∃ es fs, elements = es ++ fs ∧ shapes es = a ∧ shapes fs = b :=
  List.map_eq_append_iff.1 h

theorem eq_hard_own_of_shapes {elements : List Element} {slot : Slot} {token : Token} {spare : Bool}
    {gift : Gift} (h : shapes elements = [.space .hard, .own slot token spare gift]) :
    ∃ comments, elements = [.space .hard] ++ [.own slot ⟨token, comments⟩ spare gift] := by
  obtain ⟨a, b, rfl, ha, hb⟩ := exists_append_of_shapes (a := [.space .hard]) h
  obtain rfl := eq_space_of_shapes ha
  obtain ⟨comments, rfl⟩ := eq_own_of_shapes hb
  exact ⟨comments, rfl⟩

/-- Elements of the same steps so many times. -/
theorem exists_steps_of_shapes {α : Type} {f : α → List Element} {step : List Shape}
    (hstep : ∀ es, shapes es = step → ∃ a, es = f a) {n : Nat} {elements : List Element}
    (h : shapes elements = Shape.times step n) :
    ∃ as : List α, elements = as.flatMap f ∧ as.length = n := by
  induction n generalizing elements with
  | zero => exact ⟨[], List.map_eq_nil_iff.1 h, rfl⟩
  | succ n ih =>
    obtain ⟨es, fs, rfl, hes, hfs⟩ := exists_append_of_shapes h
    obtain ⟨a, rfl⟩ := hstep es hes
    obtain ⟨as, rfl, rfl⟩ := ih hfs
    exact ⟨a :: as, rfl, rfl⟩

theorem exists_spaced_of_shapes {elements : List Element} {piece : Piece} {slot : Slot}
    {goal : Goal} (h : shapes elements = [.space piece, .child slot goal]) :
    ∃ c, elements = [.space piece, .child slot goal c] := by
  obtain ⟨es, fs, rfl, hes, hfs⟩ := exists_append_of_shapes (a := [.space piece]) h
  obtain rfl := eq_space_of_shapes hes
  obtain ⟨c, rfl⟩ := eq_child_of_shapes hfs
  exact ⟨c, rfl⟩

theorem exists_repeated_of_shapes {elements : List Element} {slot : Slot} {goal : Goal} {n : Nat}
    (h : shapes elements = Shape.repeated slot goal n) :
    ∃ children, elements = Element.repeated slot goal children ∧ children.length = n :=
  exists_steps_of_shapes (fun _ => exists_spaced_of_shapes) h

theorem exists_listed_of_shapes {elements : List Element} {slot : Slot} {goal : Goal}
    {padded : Bool} {n : Nat} (h : shapes elements = Shape.listed slot goal padded n) :
    ∃ children, elements = Element.listed slot goal padded children ∧ children.length = n := by
  cases n with
  | zero => exact ⟨[], List.map_eq_nil_iff.1 h, rfl⟩
  | succ n =>
    obtain ⟨es, fs, rfl, hes, hfs⟩ := exists_append_of_shapes h
    obtain ⟨es, gs, rfl, hpadding, hgs⟩ := exists_append_of_shapes hes
    obtain ⟨first, others, rfl, hfirst, hothers⟩ :=
      exists_append_of_shapes (a := [.child slot goal]) hgs
    obtain ⟨c, rfl⟩ := eq_child_of_shapes hfirst
    obtain ⟨children, rfl, rfl⟩ := exists_steps_of_shapes (fun _ => exists_spaced_of_shapes) hothers
    refine ⟨c :: children, ?_, rfl⟩
    have hspace {es : List Element}
        (h : shapes es = if padded = true then [.space .soft] else []) :
        es = if padded then [.space .soft] else [] := by
      cases padded with
      | true => exact eq_space_of_shapes h
      | false => exact List.map_eq_nil_iff.1 h
    rw [hspace hpadding, hspace hfs]
    rfl

theorem exists_separated_of_shapes {elements : List Element} {slot : Slot} {goal : Goal}
    {delimiter : Punctuator} {n : Nat}
    (h : shapes elements = Shape.separated slot goal delimiter n) :
    ∃ first others, elements = Element.separated slot goal first others ∧ others.length = n ∧
      ∀ next ∈ others, next.1.token = .punct delimiter := by
  obtain ⟨es, fs, rfl, hes, hfs⟩ := exists_append_of_shapes (a := [.child slot goal]) h
  obtain ⟨first, rfl⟩ := eq_child_of_shapes hes
  have hstep (es : List Element) (h : shapes es = [.space .soft, .plain (.punct delimiter),
      .space .soft, .child slot goal]) :
      ∃ next : List Comment × Child,
        es = Element.delimited slot goal ⟨.punct delimiter, next.1⟩ next.2 := by
    obtain ⟨a, es, rfl, ha, hes⟩ := exists_append_of_shapes (a := [.space .soft]) h
    obtain ⟨b, es, rfl, hb, hc⟩ := exists_append_of_shapes (a := [.plain (.punct delimiter)]) hes
    obtain rfl := eq_space_of_shapes ha
    obtain ⟨comments, rfl⟩ := eq_own_of_shapes hb
    obtain ⟨c, rfl⟩ := exists_spaced_of_shapes hc
    exact ⟨(comments, c), rfl⟩
  obtain ⟨others, rfl, rfl⟩ := exists_steps_of_shapes hstep hfs
  refine ⟨first, others.map fun next => (⟨.punct delimiter, next.1⟩, next.2), ?_,
    List.length_map .., ?_⟩
  · rw [Element.separated, List.flatMap_map]
    rfl
  · intro next hn
    obtain ⟨other, -, rfl⟩ := List.mem_map.1 hn
    rfl

end Elements

/-! ### Elements of parts and items -/

theorem SpellParts.exists_split {part : Part} {parts : List Part} {elements : List Element}
    (h : SpellParts (part :: parts) (Elements.shapes elements)) :
    ∃ es fs, elements = es ++ fs ∧ part.Spells (Elements.shapes es) ∧
      SpellParts parts (Elements.shapes fs) := by
  obtain ⟨a, b, hshapes, ha, hb⟩ := h.exists_append
  obtain ⟨es, fs, rfl, rfl, rfl⟩ := Elements.exists_append_of_shapes hshapes
  exact ⟨es, fs, rfl, ha, hb⟩

theorem SpellItems.exists_split {item : Item} {items : List Item} {elements : List Element}
    (h : SpellItems (item :: items) (Elements.shapes elements)) :
    ∃ es fs, elements = es ++ fs ∧ item.Spells (Elements.shapes es) ∧
      SpellItems items (Elements.shapes fs) := by
  obtain ⟨a, b, hshapes, ha, hb⟩ := h.exists_append
  obtain ⟨es, fs, rfl, rfl, rfl⟩ := Elements.exists_append_of_shapes hshapes
  exact ⟨es, fs, rfl, ha, hb⟩

end GraphQLTree
