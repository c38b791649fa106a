import GraphQLTree.Proofs.Grammar.Choices
import GraphQLTree.Proofs.Grammar.Soundness

/-!
# Reading is complete

A reader finds the derivation of words that have one (`Derives.read`), as long as what is behind them
doesn't look like more of the goal.
-/

namespace GraphQLTree

/-! ### What stands next -/

/-- Whether some lexemes start with a token of some classes. -/
def FirstIn (classes : List TokenClass) (lexemes : List Lexeme) : Prop :=
  ∃ token, firstToken lexemes = some token ∧ token.toClass ∈ classes

theorem FirstIn.mono {as bs : List TokenClass} {lexemes : List Lexeme} (h : FirstIn as lexemes)
    (hsub : as ⊆ bs) : FirstIn bs lexemes := by
  obtain ⟨token, htoken, hmem⟩ := h
  exact ⟨token, htoken, hsub hmem⟩

theorem firstIn_of_startsWith {terminal : Terminal} {lexemes : List Lexeme}
    (h : startsWith terminal.accepts lexemes = true) : FirstIn terminal.classes lexemes := by
  obtain ⟨token, htoken, haccepts⟩ := (Option.any_eq_true _ _).1 h
  exact ⟨token, htoken, (terminal.accepts_iff token).1 haccepts⟩

theorem FirstIn.clear {as bs : List TokenClass} {lexemes : List Lexeme} (h : FirstIn bs lexemes)
    (hapart : TokenClass.apart as bs = true) : Clear as lexemes := by
  obtain ⟨token, htoken, hmem⟩ := h
  rintro t ht
  obtain rfl := Option.some.inj (htoken.symm.trans ht)
  exact TokenClass.not_mem_of_apart hapart hmem

theorem FirstIn.startsWith (terminal : Terminal) {classes : List TokenClass}
    {lexemes : List Lexeme} (h : FirstIn classes lexemes) (hsub : classes ⊆ terminal.classes) :
    startsWith terminal.accepts lexemes = true := by
  obtain ⟨token, htoken, hmem⟩ := h
  rw [GraphQLTree.startsWith, htoken]
  exact (terminal.accepts_iff token).2 (hsub hmem)

theorem Clear.startsWith (terminal : Terminal) {classes : List TokenClass}
    {lexemes : List Lexeme} (h : Clear classes lexemes) (hsub : terminal.classes ⊆ classes) :
    startsWith terminal.accepts lexemes = false := by
  unfold GraphQLTree.startsWith
  cases htoken : firstToken lexemes with
  | none => rfl
  | some token =>
    refine Bool.eq_false_iff.2 fun haccepts => h token htoken (hsub ?_)
    exact (terminal.accepts_iff token).1 haccepts

theorem Mark.StartIn.firstIn {classes : List TokenClass} {marks : List Mark}
    (h : StartIn classes marks) {lexemes : List Lexeme}
    (hw : lexemes.map Lexeme.word = marks.map Mark.word) (rest : List Lexeme) :
    FirstIn classes (lexemes ++ rest) := by
  obtain ⟨mark, marks, rfl, hmem⟩ := h
  obtain ⟨lexeme, lexemes, rfl, hword, -⟩ := List.map_eq_cons_iff.1 hw
  exact ⟨mark.word.token, by rw [← hword]; rfl, hmem⟩

theorem Goal.starts_subset_of_all {goal : Goal} {p : Punctuator}
    (h : goal.starts.all (· = .punct p) = true) :
    goal.starts ⊆ (Terminal.punct p).classes := by
  intro c hc
  simpa [Terminal.classes] using List.all_eq_true.1 h c hc

/-! ### Repetition -/

/-- Whether a reader finds a child among the lexemes of its words. -/
def Element.ReadBack (sub : Goal → List Lexeme → Outcome Node) : Element → Prop
  | child _ goal c => ∀ lexemes rest, lexemes.map Lexeme.word = c.marks.map Mark.word →
      Clear goal.further rest → sub goal (lexemes ++ rest) = .done c.node rest
  | _ => True

section Repetition

variable {sub : Goal → List Lexeme → Outcome Node} {slot : Slot} {goal : Goal}

/-- The lexemes of the words of two lists of marks. -/
theorem exists_lexemes_append {lexemes : List Lexeme} {a b : List Mark}
    (h : lexemes.map Lexeme.word = (a ++ b).map Mark.word) :
    ∃ l m, lexemes = l ++ m ∧ l.map Lexeme.word = a.map Mark.word ∧
      m.map Lexeme.word = b.map Mark.word := by
  rw [List.map_append] at h
  exact List.map_eq_append_iff.1 h

private theorem length_le_flatMap {α β : Type} {f : α → List β} (as : List α)
    (h : ∀ a ∈ as, f a ≠ []) : as.length ≤ (as.flatMap f).length := by
  induction as with
  | nil => simp
  | cons a as ih =>
    have hhead := List.length_pos_iff.2 (h a List.mem_cons_self)
    have htail := ih fun b hb => h b (List.mem_cons_of_mem _ hb)
    simp only [List.flatMap_cons, List.length_append, List.length_cons]
    omega

theorem Mark.StartIn.ne_nil {classes : List TokenClass} {marks : List Mark}
    (h : StartIn classes marks) : marks ≠ [] := by
  obtain ⟨mark, rest, rfl, -⟩ := h
  simp

theorem length_of_map_word {lexemes : List Lexeme} {marks : List Mark}
    (h : lexemes.map Lexeme.word = marks.map Mark.word) : lexemes.length = marks.length := by
  simpa using congrArg List.length h

/-- Children are read one after the other up to where the lexemes say to stop. -/
theorem readUntil_complete {stop : List Lexeme → Bool} {rest : List Lexeme}
    (hgo : ∀ lexemes, FirstIn goal.starts lexemes → stop lexemes = false ∧
      Clear goal.further lexemes)
    (hstop : stop rest = true) (hrest : Clear goal.further rest) {children : List Child}
    (hstarts : ∀ c ∈ children, Mark.StartIn goal.starts c.marks)
    (hback : ∀ c ∈ children, (Element.child slot goal c).ReadBack sub) {depth : Nat}
    (hdepth : children.length ≤ depth) {lexemes : List Lexeme}
    (hw : lexemes.map Lexeme.word = (children.flatMap Child.marks).map Mark.word) :
    readUntil (sub goal) stop depth (lexemes ++ rest) = .done (children.map Child.node) rest := by
  induction children generalizing depth lexemes with
  | nil =>
    obtain rfl : lexemes = [] := by simpa using hw
    unfold readUntil
    rw [List.nil_append, if_pos hstop]
    rfl
  | cons c children ih =>
    obtain ⟨l, m, rfl, hl, hm⟩ := exists_lexemes_append hw
    have hc := hstarts c List.mem_cons_self
    cases depth with
    | zero => simp at hdepth
    | succ depth =>
      rw [List.append_assoc, readUntil, (hgo _ (hc.firstIn hl (m ++ rest))).1, if_neg (by simp)]
      have hclear : Clear goal.further (m ++ rest) := by
        cases children with
        | nil =>
          obtain rfl : m = [] := by simpa using hm
          exact hrest
        | cons d children =>
          refine (hgo _ ?_).2
          exact ((hstarts d (by simp)).append _).firstIn hm rest
      have htail := ih (fun d hd => hstarts d (List.mem_cons_of_mem _ hd))
        (fun d hd => hback d (List.mem_cons_of_mem _ hd)) (by simpa using hdepth) hm
      simp only [hback c List.mem_cons_self l (m ++ rest) hl hclear, Outcome.andThen, htail,
        Outcome.map]
      rfl

/-- Children are read with delimiters between them. -/
theorem readSeparated_complete {delimiter : Punctuator} {rest : List Lexeme}
    (hdelimiter : .punct delimiter ∉ goal.further)
    (hrest : Clear (.punct delimiter :: goal.further) rest) {first : Child}
    {others : List (Word × Child)}
    (htokens : ∀ next ∈ others, next.1.token = .punct delimiter)
    (hback : ∀ c ∈ first :: others.map Prod.snd, (Element.child slot goal c).ReadBack sub)
    {depth : Nat} (hdepth : others.length < depth) {lexemes : List Lexeme}
    (hw : lexemes.map Lexeme.word =
      (first.marks ++ others.flatMap fun next => ⟨next.1, false⟩ :: next.2.marks).map Mark.word) :
    readSeparated (sub goal) delimiter depth (lexemes ++ rest) =
      .done (first.node :: others.map (·.2.node), others.flatMap (·.1.comments)) rest := by
  -- By induction on the children behind the first one: each of them stands behind a delimiter.
  induction others generalizing first depth lexemes with
  | nil =>
    cases depth with
    | zero => cases hdepth
    | succ depth =>
      have hfirst := hback first (by simp) lexemes rest (by simpa using hw)
        (hrest.mono (List.subset_cons_self _ _))
      simp only [readSeparated, hfirst, Outcome.andThen]
      cases rest with
      | nil => rfl
      | cons lexeme rest =>
        -- What is behind the last child isn't a delimiter, or it would be read as one.
        have hne : lexeme.token ≠ .punct delimiter := by
          intro h
          exact hrest lexeme.token rfl (by simp [h, Token.toClass])
        exact if_neg hne
  | cons next others ih =>
    cases depth with
    | zero => cases hdepth
    | succ depth =>
      obtain ⟨l, m, rfl, hl, hm⟩ := exists_lexemes_append hw
      rw [List.flatMap_cons, List.cons_append, List.map_cons] at hm
      obtain ⟨lexeme, m, rfl, hlexeme, hm⟩ := List.map_eq_cons_iff.1 hm
      have htoken : lexeme.token = .punct delimiter := by
        rw [← htokens next List.mem_cons_self]
        exact congrArg Word.token hlexeme
      -- No child can go on with the delimiter, so the first one ends in front of it.
      have hclear : Clear goal.further (lexeme :: m ++ rest) := by
        rintro token ht
        obtain rfl := Option.some.inj ht
        rwa [htoken]
      have hfirst := hback first (by simp) l (lexeme :: m ++ rest) hl hclear
      have htail := ih (fun n hn => htokens n (List.mem_cons_of_mem _ hn))
        (fun c hc => hback c (List.mem_cons_of_mem _ (by simpa using hc)))
        (by simpa using hdepth) hm
      have hcomments : lexeme.comments = next.1.comments := congrArg Word.comments hlexeme
      rw [List.append_assoc, readSeparated, hfirst]
      simp only [Outcome.andThen, List.cons_append, if_pos htoken, htail, Outcome.map, hcomments]
      rfl

end Repetition

/-! ### Parts -/

/-- Whether what is behind a part doesn't look like more of it, and closes it if it is a list. -/
def Part.EndsBefore (rest : List Lexeme) : Part → Prop
  | listed _ _ close _ => startsWith (Terminal.punct close).accepts rest = true
  | part => Clear (part.further Goal.further) rest

/-- What is known of elements that a reader is to find. -/
structure Findable (sub : Goal → List Lexeme → Outcome Node) (elements : List Element) : Prop where
  derived : ∀ element ∈ elements, element.Derived
  back : ∀ element ∈ elements, element.ReadBack sub

namespace Findable

variable {sub : Goal → List Lexeme → Outcome Node}

theorem of_append {a b : List Element} (h : Findable sub (a ++ b)) :
    Findable sub a ∧ Findable sub b := by
  exact ⟨⟨fun e he => h.derived e (List.mem_append_left _ he),
      fun e he => h.back e (List.mem_append_left _ he)⟩,
    ⟨fun e he => h.derived e (List.mem_append_right _ he),
      fun e he => h.back e (List.mem_append_right _ he)⟩⟩

theorem startIn {elements : List Element} (h : Findable sub elements) :
    ∀ slot goal c, .child slot goal c ∈ elements → Mark.StartIn goal.starts c.marks :=
  fun slot goal c hc => (h.derived (.child slot goal c) hc).startIn

end Findable

private theorem exists_lexeme {lexemes : List Lexeme} {word : Word}
    (h : lexemes.map Lexeme.word = [word]) :
    ∃ span, lexemes = [⟨word.token, span, word.comments⟩] := by
  obtain ⟨lexeme, rfl, rfl⟩ := List.map_eq_singleton_iff.1 h
  exact ⟨lexeme.span, rfl⟩

/-- An own token that is accepted is taken. -/
private theorem run_token {accepts : Token → Bool} {failure : Failure} {slot : Slot}
    {token : Token} {comments : List Comment} {gift : Gift} (haccepts : accepts token = true)
    {lexemes : List Lexeme} (hw : lexemes.map Lexeme.word = [⟨token, comments⟩])
    {draft : Draft} {f : Lexeme → Draft}
    (hatom : ∀ span, (f ⟨token, span, comments⟩).atom = gift.atom?.getD draft.atom)
    (hentries : ∀ span, (f ⟨token, span, comments⟩).entries =
      draft.entries ++ (Node.ofComments slot comments ++ gift.entries))
    (rest : List Lexeme) :
    ∃ draft', (takeToken accepts failure (lexemes ++ rest)).map f = .done draft' rest ∧
      Run [.own slot ⟨token, comments⟩ false gift] draft draft' (lexemes ++ rest) rest := by
  obtain ⟨span, rfl⟩ := exists_lexeme hw
  refine ⟨f ⟨token, span, comments⟩, ?_,
    .own ⟨token, span, comments⟩ rest slot false gift (hatom span) (hentries span)⟩
  rw [List.singleton_append, takeToken, if_pos haccepts]
  rfl

section Parts

variable {sub : Goal → List Lexeme → Outcome Node} {depth : Nat} {kind : Kind}

/-- A name that isn't refused is taken. -/
private theorem run_name {slot : Slot} {rule : NameRule} {text : String}
    (h : rule.refuses? text = none) {comments : List Comment} {lexemes : List Lexeme}
    (hw : lexemes.map Lexeme.word = [⟨.name text, comments⟩]) (draft : Draft)
    (rest : List Lexeme) :
    ∃ draft', Part.read.readName kind draft (lexemes ++ rest) slot rule = .done draft' rest ∧
      Run [.own .comments ⟨.name text, comments⟩ false (.name slot text)] draft draft'
        (lexemes ++ rest) rest := by
  obtain ⟨span, rfl⟩ := exists_lexeme hw
  refine ⟨(draft.addComments .comments comments).add slot (.ofName text), ?_,
    .own ⟨.name text, span, comments⟩ rest .comments false (.name slot text) rfl ?_⟩
  · simp only [Part.read.readName, List.singleton_append, h]
  · simp [Draft.addComments, Draft.add]

/-- Children with delimiters between them don't start with a delimiter. -/
private theorem Findable.not_delimiter {slot : Slot} {goal : Goal} {delimiter : Punctuator}
    (hdecides : (Part.separated slot goal delimiter).decides = true) {n : Nat}
    {elements : List Element}
    (hshapes : Elements.shapes elements = Shape.separated slot goal delimiter n)
    (h : Findable sub elements) {lexemes : List Lexeme}
    (hw : lexemes.map Lexeme.word = (Elements.marks elements).map Mark.word)
    (rest : List Lexeme) : startsWith (· = .punct delimiter) (lexemes ++ rest) = false := by
  obtain ⟨first, others, rfl, -, -⟩ := Elements.exists_separated_of_shapes hshapes
  rw [Element.marks_separated] at hw
  rw [Part.decides, Bool.and_eq_true] at hdecides
  have hmem : .child slot goal first ∈ Element.separated slot goal first others :=
    Element.mem_separated slot goal List.mem_cons_self
  have hfirst := ((h.startIn slot goal first hmem).append _).firstIn hw rest
  exact (hfirst.clear hdecides.1).startsWith (.punct delimiter) (List.Subset.refl _)

/-- Children with delimiters between them are read as what they spell. -/
private theorem run_separated {slot : Slot} (hslot : slot.holdsComments = false) {goal : Goal}
    {delimiter : Punctuator} (hdecides : (Part.separated slot goal delimiter).decides = true)
    {n : Nat} {elements : List Element}
    (hshapes : Elements.shapes elements = Shape.separated slot goal delimiter n)
    (h : Findable sub elements) {lexemes : List Lexeme}
    (hw : lexemes.map Lexeme.word = (Elements.marks elements).map Mark.word)
    (hdepth : lexemes.length ≤ depth) {rest : List Lexeme}
    (hrest : Clear (.punct delimiter :: goal.further) rest) (draft : Draft) :
    ∃ draft', ((readSeparated (sub goal) delimiter depth (lexemes ++ rest)).map
        fun (nodes, comments) =>
          (draft.addAll slot nodes).addComments .comments comments) = .done draft' rest ∧
      Run elements draft draft' (lexemes ++ rest) rest := by
  obtain ⟨first, others, rfl, rfl, htokens⟩ := Elements.exists_separated_of_shapes hshapes
  rw [Element.marks_separated] at hw
  rw [Part.decides, Bool.and_eq_true] at hdecides
  have hmem (c : Child) (hc : c ∈ first :: others.map Prod.snd) :=
    Element.mem_separated slot goal hc
  have hback (c : Child) (hc : c ∈ first :: others.map Prod.snd) := h.back _ (hmem c hc)
  have hd (c : Child) (hc : c ∈ first :: others.map Prod.snd) := h.derived _ (hmem c hc)
  have hlength : others.length < depth := by
    have hpos := List.length_pos_iff.2 (h.startIn slot goal first (hmem first (by simp))).ne_nil
    have hle := length_le_flatMap others
      (f := fun next => (⟨next.1, false⟩ :: next.2.marks : List Mark)) (by simp)
    have := length_of_map_word hw
    rw [List.length_append] at this
    omega
  have hread := readSeparated_complete
    (TokenClass.not_mem_of_apart hdecides.2 (List.mem_singleton_self _)) hrest htokens hback
    hlength hw
  refine ⟨_, ?_, .separated hslot htokens (hd first (by simp))
    (fun next hn => hd next.2 (by simp; exact .inr ⟨_, hn⟩)) ⟨lexemes, rfl, hw⟩ draft⟩
  simp only [hread]
  rfl

/-- A child is read as what it spells. -/
private theorem run_child {slot : Slot} {goal : Goal} {c : Child}
    (h : Findable sub [.child slot goal c]) {lexemes : List Lexeme}
    (hw : lexemes.map Lexeme.word = (Elements.marks [.child slot goal c]).map Mark.word)
    {rest : List Lexeme} (hrest : Clear goal.further rest) (draft : Draft) :
    ∃ draft', ((sub goal (lexemes ++ rest)).map fun node => draft.add slot node) =
        .done draft' rest ∧
      Run [.child slot goal c] draft draft' (lexemes ++ rest) rest := by
  rw [Elements.marks_cons, Elements.marks_nil, List.append_nil] at hw
  refine ⟨draft.add slot c.node, ?_,
    .child (h.derived _ List.mem_cons_self) ⟨lexemes, rfl, hw⟩ draft⟩
  rw [h.back _ List.mem_cons_self lexemes rest hw hrest]
  rfl

/-- Children among some elements are read one after the other. -/
private theorem Findable.readUntil {elements : List Element} (h : Findable sub elements) {slot : Slot}
    {goal : Goal} {children : List Child} (hmem : ∀ c ∈ children, .child slot goal c ∈ elements)
    {stop : List Lexeme → Bool} {rest : List Lexeme}
    (hgo : ∀ lexemes, FirstIn goal.starts lexemes → stop lexemes = false ∧
      Clear goal.further lexemes)
    (hstop : stop rest = true) (hrest : Clear goal.further rest) {lexemes : List Lexeme}
    (hw : lexemes.map Lexeme.word = (children.flatMap Child.marks).map Mark.word)
    (hdepth : lexemes.length ≤ depth) :
    GraphQLTree.readUntil (sub goal) stop depth (lexemes ++ rest) =
      .done (children.map Child.node) rest := by
  have hstarts (c : Child) (hc : c ∈ children) := h.startIn slot goal c (hmem c hc)
  -- No child is without words, so there are no more children than lexemes.
  have hlength : children.length ≤ depth := by
    have hle := length_le_flatMap children fun c hc => (hstarts c hc).ne_nil
    have := length_of_map_word hw
    omega
  exact readUntil_complete hgo hstop hrest hstarts (fun c hc => h.back _ (hmem c hc)) hlength hw

/-- Children in front of a closing punctuator are read as what they spell. -/
private theorem run_listed {slot : Slot} {goal : Goal} {close : Punctuator} {allowEmpty : Bool}
    (hdecides : (Part.listed slot goal close allowEmpty).decides = true) {n : Nat}
    (hempty : n = 0 → allowEmpty = true) {elements : List Element}
    (hshapes : Elements.shapes elements = Shape.listed slot goal (close = .braceClose) n)
    (h : Findable sub elements) {lexemes : List Lexeme}
    (hw : lexemes.map Lexeme.word = (Elements.marks elements).map Mark.word)
    (hdepth : lexemes.length ≤ depth) {rest : List Lexeme}
    (hrest : startsWith (Terminal.punct close).accepts rest = true) (draft : Draft) :
    ∃ draft', (Part.listed slot goal close allowEmpty).read sub depth kind draft
        (lexemes ++ rest) = .done draft' rest ∧
      Run elements draft draft' (lexemes ++ rest) rest := by
  obtain ⟨children, rfl, rfl⟩ := Elements.exists_listed_of_shapes hshapes
  rw [Element.marks_listed] at hw
  rw [Part.decides, Bool.and_eq_true] at hdecides
  have hmem (c : Child) (hc : c ∈ children) :=
    Element.mem_listed slot goal (close = .braceClose) hc
  have hgo (l : List Lexeme) (hl : FirstIn goal.starts l) :
      startsWith (· = .punct close) l = false ∧ Clear goal.further l :=
    ⟨(hl.clear hdecides.1).startsWith (.punct close) (List.Subset.refl _),
      (hl.mono (List.subset_cons_self _ _)).clear hdecides.2⟩
  have hclose : Clear goal.further rest :=
    ((firstIn_of_startsWith hrest).mono (by simp [Terminal.classes])).clear hdecides.2
  have hread := h.readUntil hmem hgo hrest hclose hw hdepth
  -- The punctuator isn't in front of the children, unless there are none.
  have hopen : (startsWith (· = .punct close) (lexemes ++ rest) && !allowEmpty) = false := by
    cases children with
    | nil => simp [hempty rfl]
    | cons c children =>
      have hstart := h.startIn slot goal c (hmem c List.mem_cons_self)
      simp [(hgo _ ((hstart.append _).firstIn hw rest)).1]
  refine ⟨_, ?_, .listed (fun c hc => h.derived _ (hmem c hc)) ⟨lexemes, rfl, hw⟩ _ draft⟩
  rw [Part.read, if_neg (by simp [hopen]), hread]
  rfl

/-- Children that all start with a punctuator are read as what they spell. -/
private theorem run_repeated {slot : Slot} {goal : Goal} {start : Punctuator}
    (hdecides : (Part.repeated slot goal start).decides = true) {n : Nat} {elements : List Element}
    (hshapes : Elements.shapes elements = Shape.repeated slot goal n)
    (h : Findable sub elements) {lexemes : List Lexeme}
    (hw : lexemes.map Lexeme.word = (Elements.marks elements).map Mark.word)
    (hdepth : lexemes.length ≤ depth) {rest : List Lexeme}
    (hrest : Clear (.punct start :: goal.further) rest) (draft : Draft) :
    ∃ draft', (Part.repeated slot goal start).read sub depth kind draft (lexemes ++ rest) =
        .done draft' rest ∧
      Run elements draft draft' (lexemes ++ rest) rest := by
  obtain ⟨children, rfl, rfl⟩ := Elements.exists_repeated_of_shapes hshapes
  rw [Element.marks_repeated] at hw
  rw [Part.decides, Bool.and_eq_true] at hdecides
  have hsub := Goal.starts_subset_of_all hdecides.1
  have hmem (c : Child) (hc : c ∈ children) := Element.mem_repeated slot goal hc
  have hgo (l : List Lexeme) (hl : FirstIn goal.starts l) :
      (!startsWith (· = .punct start) l) = false ∧ Clear goal.further l := by
    have hstart : startsWith (· = .punct start) l = true := hl.startsWith (.punct start) hsub
    exact ⟨by rw [hstart]; rfl, (hl.mono hsub).clear hdecides.2⟩
  have hstop : (!startsWith (· = .punct start) rest) = true := by
    have hstart : startsWith (· = .punct start) rest = false :=
      hrest.startsWith (.punct start) (by simp [Terminal.classes])
    rw [hstart]
    rfl
  have hread := h.readUntil hmem hgo hstop (hrest.mono (List.subset_cons_self _ _)) hw hdepth
  refine ⟨_, ?_, .repeated (fun c hc => h.derived _ (hmem c hc)) ⟨lexemes, rfl, hw⟩ draft⟩
  rw [Part.read, hread]
  rfl

/-- A spare delimiter in front of children is skipped. -/
private theorem run_spared {slot : Slot} (hslot : slot.holdsComments = false) {goal : Goal}
    {delimiter : Punctuator} (hdecides : (Part.separated slot goal delimiter).decides = true)
    {n : Nat} {elements : List Element}
    (hshapes : Elements.shapes elements =
      .spare delimiter :: Shape.separated slot goal delimiter n)
    (h : Findable sub elements) {lexemes : List Lexeme}
    (hw : lexemes.map Lexeme.word = (Elements.marks elements).map Mark.word)
    (hdepth : lexemes.length ≤ depth) {rest : List Lexeme}
    (hrest : Clear (.punct delimiter :: goal.further) rest) (draft : Draft) :
    ∃ draft', (Part.separated slot goal delimiter).read sub depth kind draft (lexemes ++ rest) =
        .done draft' rest ∧
      Run elements draft draft' (lexemes ++ rest) rest := by
  obtain ⟨own, es, rfl, hown, hes⟩ :=
    Elements.exists_append_of_shapes (a := [.spare delimiter]) hshapes
  obtain ⟨comments, rfl⟩ := Elements.eq_own_of_shapes hown
  rw [Elements.marks_append] at hw
  obtain ⟨l, m, rfl, hl, hm⟩ := exists_lexemes_append hw
  obtain ⟨span, rfl⟩ := exists_lexeme hl
  rw [List.length_append] at hdepth
  have hdepthm : m.length ≤ depth := by omega
  obtain ⟨draft', hread, hrun⟩ := run_separated hslot hdecides hes h.of_append.2 hm hdepthm hrest
    (draft.addComments .comments comments)
  have hspare : Run [.own .comments ⟨.punct delimiter, comments⟩ true .nothing] draft
      (draft.addComments .comments comments)
      (⟨.punct delimiter, span, comments⟩ :: (m ++ rest)) (m ++ rest) :=
    .own ⟨.punct delimiter, span, comments⟩ (m ++ rest) .comments true .nothing rfl
      (by simp [Draft.addComments])
  have hskip : draft.skipDelimiter delimiter (⟨.punct delimiter, span, comments⟩ :: (m ++ rest)) =
      (draft.addComments .comments comments, m ++ rest) :=
    if_pos rfl
  refine ⟨draft', ?_, hspare.append hrun⟩
  rw [Part.read, List.append_assoc, List.singleton_append, hskip]
  exact hread

/-- A part is read as what it spells. -/
theorem Part.read_complete {part : Part} (hpart : part.isReadable = true)
    (hdecides : part.decides = true) {elements : List Element}
    (hspells : part.Spells (Elements.shapes elements)) (h : Findable sub elements)
    {lexemes : List Lexeme}
    (hw : lexemes.map Lexeme.word = (Elements.marks elements).map Mark.word)
    (hdepth : lexemes.length ≤ depth) {rest : List Lexeme} (hrest : part.EndsBefore rest)
    (draft : Draft) (hdemand : ∀ p, part = .demand p → draft.hasParts = true) :
    ∃ draft', part.read sub depth kind draft (lexemes ++ rest) = .done draft' rest ∧
      Run elements draft draft' (lexemes ++ rest) rest := by
  have hslot {slot : Slot} {goal : Goal} (hask : (slot, goal) ∈ part.asks) :
      slot.holdsComments = false :=
    (isReadable_of_asks hpart hask).1
  generalize hshapes : Elements.shapes elements = shapes at hspells
  -- One case for each way in which a part can be spelled; lists have their own lemmas.
  cases hspells with
  | gap g =>
    obtain rfl := Elements.eq_space_of_shapes hshapes
    obtain rfl : lexemes = [] := by simpa using hw
    exact ⟨draft, rfl, .space g.piece draft rest⟩
  | punct p =>
    obtain ⟨comments, rfl⟩ := Elements.eq_own_of_shapes hshapes
    exact run_token (by simp) hw (fun _ => rfl) (fun _ => by simp [Draft.addComments]) rest
  | bracket p slot => 
    obtain ⟨comments, rfl⟩ := Elements.eq_own_of_shapes hshapes
    exact run_token (by simp) hw (fun _ => rfl) (fun _ => by simp [Draft.addComments]) rest
  | keyword k => 
    obtain ⟨comments, rfl⟩ := Elements.eq_own_of_shapes hshapes
    exact run_token (by simp [Terminal.accepts]) hw (fun _ => rfl)
      (fun _ => by simp [Draft.addComments]) rest
  | name slot rule text hrefuses =>
    obtain ⟨comments, rfl⟩ := Elements.eq_own_of_shapes hshapes
    exact run_name hrefuses hw draft rest
  | spacedName slot text =>
    -- The space is part of what is written, but there is nothing to read of it.
    obtain ⟨comments, rfl⟩ := Elements.eq_hard_own_of_shapes hshapes
    have hrefuses : NameRule.any.refuses? text = none := by
      cases Keyword.ofName? text <;> simp [NameRule.refuses?]
    obtain ⟨draft', hread, hrun⟩ := run_name hrefuses hw draft rest
    exact ⟨draft', hread, (Run.space .hard draft _).append hrun⟩
  | literal l token atom hread =>
    obtain ⟨comments, rfl⟩ := Elements.eq_own_of_shapes hshapes
    exact run_token (by simp [hread]) hw (fun _ => by simp [hread, Gift.atom?])
      (fun _ => by simp [Draft.addComments]) rest
  | child slot goal =>
    obtain ⟨c, rfl⟩ := Elements.eq_child_of_shapes hshapes
    exact run_child h hw hrest draft
  | opened p slot goal =>
    obtain ⟨c, rfl⟩ := Elements.eq_child_of_shapes hshapes
    -- The child starts with the token that the part looks for.
    have hfirst := ((h.startIn slot goal c List.mem_cons_self).append _).firstIn hw rest
    have hopens : startsWith (· = .punct p) (lexemes ++ rest) = true :=
      hfirst.startsWith (.punct p) (Goal.starts_subset_of_all hdecides)
    rw [Part.read, if_pos hopens]
    exact run_child h hw hrest draft
  | listed slot goal close allowEmpty n hempty =>
    exact run_listed hdecides hempty hshapes h hw hdepth hrest draft
  | repeated slot goal start n => exact run_repeated hdecides hshapes h hw hdepth hrest draft
  | separated slot goal delimiter n =>
    have hstart := Findable.not_delimiter hdecides hshapes h hw rest
    -- The part may skip a delimiter in front of the children, but none is spelled here.
    have hskip : draft.skipDelimiter delimiter (lexemes ++ rest) = (draft, lexemes ++ rest) :=
      Draft.skipDelimiter_eq_self hstart draft
    obtain ⟨draft', hread, hrun⟩ := run_separated (hslot (List.mem_singleton_self _)) hdecides hshapes h hw
      hdepth hrest draft
    refine ⟨draft', ?_, hrun⟩
    rw [Part.read, hskip]
    exact hread
  | spared slot goal delimiter n =>
    exact run_spared (hslot (List.mem_singleton_self _)) hdecides hshapes h hw hdepth hrest draft
  | demand p =>
    obtain rfl := List.map_eq_nil_iff.1 hshapes
    obtain rfl : lexemes = [] := by simpa using hw
    refine ⟨draft, ?_, .nil draft rest⟩
    rw [Part.read, if_pos (hdemand p rfl)]
    rfl

/-- What is behind a part that isn't a list. -/
theorem Part.endsBefore_of_clear {part : Part} (hpart : part.isGroupable = true)
    {rest : List Lexeme} (h : Clear (part.further Goal.further) rest) : part.EndsBefore rest := by
  cases part with
  | listed slot goal close allowEmpty => cases hpart
  | _ => exact h

/-- Elements that start in some classes only, and what is behind them if there are none. -/
theorem Findable.clear {elements : List Element} (h : Findable sub elements)
    {starts further : List TokenClass} {empty : Bool}
    (hstart : Shape.StartIn starts empty (Elements.shapes elements))
    (hapart : TokenClass.apart further starts = true) {lexemes : List Lexeme}
    (hw : lexemes.map Lexeme.word = (Elements.marks elements).map Mark.word) {rest : List Lexeme}
    (hrest : empty = true → Clear further rest) : Clear further (lexemes ++ rest) := by
  rcases Elements.startIn h.startIn hstart with hstart | ⟨hnil, hempty⟩
  · exact (hstart.firstIn hw rest).clear hapart
  · obtain rfl : lexemes = [] := by simpa [hnil] using hw
    exact hrest hempty

/-- Parts are read as what they spell. -/
theorem readParts_complete {parts : List Part} (hparts : ∀ part ∈ parts, part.isReadable = true)
    (hdecides : decidesParts parts = true) {elements : List Element}
    (hspells : SpellParts parts (Elements.shapes elements)) (h : Findable sub elements)
    {lexemes : List Lexeme}
    (hw : lexemes.map Lexeme.word = (Elements.marks elements).map Mark.word)
    (hdepth : lexemes.length ≤ depth) {rest : List Lexeme}
    (hrest : Clear (furtherOfParts Goal.further parts) rest) (draft : Draft) :
    ∃ draft', readParts sub depth kind parts draft (lexemes ++ rest) = .done draft' rest ∧
      Run elements draft draft' (lexemes ++ rest) rest := by
  -- What a part leaves is read by the parts behind it, so the induction is on the parts and for all
  -- drafts.
  induction parts generalizing elements lexemes draft with
  | nil =>
    obtain rfl := List.map_eq_nil_iff.1 hspells.eq_nil
    obtain rfl : lexemes = [] := by simpa using hw
    exact ⟨draft, rfl, .nil draft rest⟩
  | cons part parts ih =>
    obtain ⟨es, fs, rfl, ha, hb⟩ := hspells.exists_split
    obtain ⟨hes, hfs⟩ := h.of_append
    rw [Elements.marks_append] at hw
    obtain ⟨l, m, rfl, hl, hm⟩ := exists_lexemes_append hw
    simp only [decidesParts, Bool.and_eq_true] at hdecides
    obtain ⟨⟨⟨hpart, hgroupable⟩, hapart⟩, htail⟩ := hdecides
    rw [List.length_append] at hdepth
    have hdepthl : l.length ≤ depth := by omega
    have hdepthm : m.length ≤ depth := by omega
    -- The part ends where it should: what the other parts spell can't be taken for more of it, and
    -- where they spell nothing, what is behind all of them can't either.
    have hbehind : Clear (part.further Goal.further) (m ++ rest) :=
      hfs.clear hb.startIn hapart hm fun hempty =>
        hrest.mono fun c hc => by simp [furtherOfParts, hempty, hc]
    obtain ⟨d, hread, hrun⟩ := Part.read_complete (hparts part List.mem_cons_self) hpart ha hes hl
      hdepthl (Part.endsBefore_of_clear hgroupable hbehind) draft
      (by rintro p rfl; cases hgroupable)
    obtain ⟨d', hread', hrun'⟩ := ih (fun p hp => hparts p (List.mem_cons_of_mem _ hp)) htail hb hfs
      hm hdepthm (hrest.mono fun c hc => List.mem_append_right _ hc) d
    refine ⟨d', ?_, ?_⟩
    · rw [List.append_assoc, readParts, hread]
      exact hread'
    · rw [List.append_assoc] 
      exact hrun.append hrun'

/-- A group is read as what it spells, if its guard tells whether it is there. -/
private theorem run_group {guard : Guard} {presence : Presence} {parts : List Part}
    (hparts : ∀ part ∈ parts, part.isReadable = true) (hdecides : decidesParts parts = true)
    {es : List Element} (hes : (Item.group guard presence parts).Spells (Elements.shapes es))
    (h : Findable sub es) {l : List Lexeme}
    (hl : l.map Lexeme.word = (Elements.marks es).map Mark.word) (hdepth : l.length ≤ depth)
    {behind : List Lexeme} (hskip : Elements.shapes es = [] → guard.holds behind = false)
    (htake : SpellParts parts (Elements.shapes es) → guard.holds (l ++ behind) = true ∧
      Clear (furtherOfParts Goal.further parts) behind) (draft : Draft) :
    ∃ draft', (Item.group guard presence parts).read sub depth kind draft (l ++ behind) =
        .done draft' behind ∧
      Run es draft draft' (l ++ behind) behind := by
  rcases hes.of_group with hes | hes
  · have hholds := hskip hes
    obtain rfl := List.map_eq_nil_iff.1 hes
    obtain rfl : l = [] := by simpa using hl
    refine ⟨draft, ?_, .nil draft _⟩
    rw [Item.read, List.nil_append, hholds, if_neg (by simp)]
  · obtain ⟨hholds, hbehind⟩ := htake hes
    rw [Item.read, if_pos hholds]
    exact readParts_complete hparts hdecides hes h hl hdepth hbehind draft

/-- The lexemes of what starts with a name start with the name. -/
private theorem exists_name_of_spells {slot : Slot} {rule : NameRule} {a b : List Shape}
    (ha : (Part.name slot rule).Spells a) {elements : List Element}
    (hshapes : Elements.shapes elements = a ++ b) {lexemes : List Lexeme}
    (hw : lexemes.map Lexeme.word = (Elements.marks elements).map Mark.word) :
    ∃ front others text span comments behind, elements = front ++ others ∧
      lexemes = ⟨.name text, span, comments⟩ :: behind ∧ Elements.shapes others = b ∧
      behind.map Lexeme.word = (Elements.marks others).map Mark.word := by
  obtain ⟨front, others, rfl, hfront, hothers⟩ := Elements.exists_append_of_shapes hshapes
  rw [Elements.marks_append] at hw
  obtain ⟨l, behind, rfl, hl, hbehind⟩ := exists_lexemes_append hw
  cases ha with
  | name _ _ text _ =>
    obtain ⟨comments, rfl⟩ := Elements.eq_own_of_shapes hfront
    obtain ⟨span, rfl⟩ := exists_lexeme hl
    exact ⟨_, others, text, span, comments, behind, rfl, rfl, hothers, hbehind⟩

section Groups

variable {first : Terminal} {presence : Presence} {parts : List Part} {items : List Item}
  {es fs : List Element} (hfs : SpellItems items (Elements.shapes fs)) (h : Findable sub (es ++ fs))
  {l m : List Lexeme} (hl : l.map Lexeme.word = (Elements.marks es).map Mark.word)
  (hm : m.map Lexeme.word = (Elements.marks fs).map Mark.word) {rest : List Lexeme}
include hfs h hl hm

/-- The first token tells whether a group is there. -/
private theorem holds_first
    (hdecides : (Item.group ⟨first, none⟩ presence parts).decides items = true)
    (hrest : items.all Item.mayBeEmpty = true →
      Clear ((Item.group ⟨first, none⟩ presence parts).furtherAs Goal.further (Elements.shapes es))
        rest) :
    (Elements.shapes es = [] → Guard.holds ⟨first, none⟩ (m ++ rest) = false) ∧
      (SpellParts parts (Elements.shapes es) →
        Guard.holds ⟨first, none⟩ (l ++ (m ++ rest)) = true ∧
          Clear (furtherOfParts Goal.further parts) (m ++ rest)) := by
  simp only [Item.decides, Bool.and_eq_true] at hdecides
  obtain ⟨⟨⟨-, hwords⟩, hfirst⟩, hapart⟩ := hdecides
  obtain ⟨hfind, hfind'⟩ := h.of_append
  have hbehind {further : List TokenClass}
      (hsub : further ⊆
        (Item.group ⟨first, none⟩ presence parts).furtherAs Goal.further (Elements.shapes es))
      (hapart : TokenClass.apart further (startsOfItems Goal.starts items) = true) :
      Clear further (m ++ rest) :=
    hfind'.clear hfs.startIn hapart hm fun hempty => (hrest hempty).mono hsub
  -- A group that isn't there has nothing to do with the first token, and one that is there starts
  -- with it.
  refine ⟨fun hes => ?_, fun hes => ⟨?_, ?_⟩⟩
  · have hclear := hbehind (by rw [hes]; exact List.Subset.refl _) hapart
    rw [Guard.holds, hclear.startsWith first (List.subset_append_left _ _), Bool.false_and]
  · rcases Elements.startIn hfind.startIn hes.startIn with hstart | ⟨-, hempty⟩
    · have hsub : startsOfParts Goal.starts parts ⊆ first.classes :=
        fun c hc => of_decide_eq_true (List.all_eq_true.1 hfirst c hc)
      rw [Guard.holds, (hstart.firstIn hl (m ++ rest)).startsWith first hsub]
      rfl
    · rw [hempty] at hwords
      cases hwords
  · have hapart' : TokenClass.apart (furtherOfParts Goal.further parts)
        (startsOfItems Goal.starts items) = true := by
      rw [TokenClass.apart, List.all_append, Bool.and_eq_true] at hapart
      exact hapart.2
    refine hbehind ?_ hapart'
    rw [Item.furtherAs]
    split
    · exact List.subset_append_right _ _
    · exact List.Subset.refl _

/-- The second token tells whether a group is there that starts with a name as what is behind it. -/
private theorem holds_second {second : Terminal}
    (hdecides : (Item.group ⟨first, some second⟩ presence parts).decides items = true)
    (hrest : items.tail.all Item.mayBeEmpty = true →
      Clear (Item.group ⟨first, some second⟩ presence parts).furtherBehind rest) :
    decidesParts parts = true ∧
      (Elements.shapes es = [] → Guard.holds ⟨first, some second⟩ (m ++ rest) = false) ∧
      (SpellParts parts (Elements.shapes es) →
        Guard.holds ⟨first, some second⟩ (l ++ (m ++ rest)) = true ∧
          Clear (furtherOfParts Goal.further parts) (m ++ rest)) := by
  simp only [Item.decides, Bool.and_eq_true] at hdecides
  obtain ⟨hfirst, hdecides⟩ := hdecides
  split at hdecides
  · next slot rule p gap slot' rule' items =>
    rw [Bool.and_eq_true] at hdecides
    obtain ⟨hsecond, hapart⟩ := hdecides
    obtain rfl : first = .name := of_decide_eq_true hfirst
    obtain rfl : second = .punct p := of_decide_eq_true hsecond
    refine ⟨rfl, fun hes => ?_, fun hes => ⟨?_, fun _ _ hc => by cases hc⟩⟩
    · -- Only what is behind the group has been spelled: its name isn't followed by the punctuator.
      obtain ⟨a, b, hshapes, ha, hb⟩ := hfs.exists_append
      obtain ⟨front, others, text, span, comments, behind, rfl, rfl, rfl, hw⟩ :=
        exists_name_of_spells ha.of_part hshapes hm
      have hclear : Clear [.punct p] (behind ++ rest) :=
        h.of_append.2.of_append.2.clear hb.startIn hapart hw fun hempty =>
          (hrest hempty).mono (by simp [Item.furtherBehind, Terminal.classes])
      rw [Guard.holds, Bool.and_eq_false_iff]
      exact .inr (hclear.startsWith (.punct p) (List.Subset.refl _))
    · -- The group has been spelled, and with it the punctuator behind its name.
      obtain ⟨a, b, hshapes, ha, hb⟩ := hes.exists_append
      obtain ⟨front, others, text, span, comments, behind, rfl, rfl, rfl, hw⟩ :=
        exists_name_of_spells ha hshapes hl
      rcases Elements.startIn h.of_append.1.of_append.2.startIn hb.startIn with hstart | ⟨-, hempty⟩
      · have hp := (hstart.firstIn hw (m ++ rest)).startsWith (.punct p) (by
          simp [startsOfParts, Part.starts, Part.mayBeEmpty, Terminal.classes])
        rw [Guard.holds, Bool.and_eq_true]
        exact ⟨rfl, hp⟩
      · cases hempty
  · cases hdecides

end Groups

/-- An item is read as what it spells, if what the items behind it spell is behind it. -/
theorem Item.read_complete {item : Item} (hitem : item.isReadable = true) {items : List Item}
    (hdecides : item.decides items = true) {es fs : List Element}
    (hes : item.Spells (Elements.shapes es)) (hfs : SpellItems items (Elements.shapes fs))
    (h : Findable sub (es ++ fs)) {l m : List Lexeme}
    (hl : l.map Lexeme.word = (Elements.marks es).map Mark.word)
    (hm : m.map Lexeme.word = (Elements.marks fs).map Mark.word)
    (hdepth : l.length ≤ depth) {rest : List Lexeme}
    (hrest : items.all Item.mayBeEmpty = true →
      Clear (item.furtherAs Goal.further (Elements.shapes es)) rest)
    (hrest' : items.tail.all Item.mayBeEmpty = true → Clear item.furtherBehind rest)
    (draft : Draft) (hdemand : ∀ p, item = .part (.demand p) → draft.hasParts = true) :
    ∃ draft', item.read sub depth kind draft (l ++ (m ++ rest)) = .done draft' (m ++ rest) ∧
      Run es draft draft' (l ++ (m ++ rest)) (m ++ rest) := by
  obtain ⟨hfind, hfind'⟩ := h.of_append
  cases item with
  | part p =>
    have hends : p.decides = true ∧ p.EndsBefore (m ++ rest) := by
      cases p with
      | listed slot goal close allowEmpty =>
        -- A list is closed by the bracket that is the next item.
        simp only [Item.decides, Bool.and_eq_true] at hdecides
        obtain ⟨hp, hnext⟩ := hdecides
        split at hnext
        · next q slot' items' =>
          obtain rfl : q = close := of_decide_eq_true hnext
          rcases Elements.startIn hfind'.startIn hfs.startIn with hstart | ⟨-, hempty⟩
          · exact ⟨hp, (hstart.firstIn hm rest).startsWith (.punct q) (by
              simp [startsOfItems, Item.starts, Part.starts, Item.mayBeEmpty, Part.mayBeEmpty,
                Terminal.classes])⟩
          · cases hempty
        · cases hnext
      | demand q => exact ⟨rfl, fun _ _ hc => by cases hc⟩
      | _ =>
        simp only [Item.decides, Bool.and_eq_true] at hdecides
        exact ⟨hdecides.1, hfind'.clear hfs.startIn hdecides.2 hm hrest⟩
    exact Part.read_complete hitem hends.1 hes.of_part hfind hl hdepth hends.2 draft
      (by rintro q rfl; exact hdemand q rfl)
  | group guard presence parts =>
    have hparts := List.all_eq_true.1 hitem
    obtain ⟨first, second⟩ := guard
    cases second with
    | none =>
      have hholds := holds_first hfs h hl hm hdecides hrest
      simp only [Item.decides, Bool.and_eq_true] at hdecides
      exact run_group hparts hdecides.1.1.1 hes hfind hl hdepth hholds.1 hholds.2 draft
    | some second =>
      obtain ⟨hdecides, hskip, htake⟩ := holds_second hfs h hl hm hdecides hrest'
      exact run_group hparts hdecides hes hfind hl hdepth hskip htake draft

/-- Items are read as what they spell. -/
theorem readItems_complete {items : List Item} (hitems : ∀ item ∈ items, item.isReadable = true)
    (hdecides : decidesItems items = true) {elements : List Element} {rest : List Lexeme}
    (hspells : SpellBefore rest items (Elements.shapes elements)) (h : Findable sub elements)
    {lexemes : List Lexeme}
    (hw : lexemes.map Lexeme.word = (Elements.marks elements).map Mark.word)
    (hdepth : lexemes.length ≤ depth) (draft : Draft)
    (hdemand : (items.any fun item => item matches .part (.demand _)) = true →
      draft.hasParts = true ∨ Shape.hasParts (Elements.shapes elements) = true) :
    ∃ draft', readItems sub depth kind items draft (lexemes ++ rest) = .done draft' rest ∧
      Run elements draft draft' (lexemes ++ rest) rest := by
  induction items generalizing elements lexemes draft with
  | nil =>
    obtain rfl := List.map_eq_nil_iff.1 hspells.spells.eq_nil
    obtain rfl : lexemes = [] := by simpa using hw
    exact ⟨draft, rfl, .nil draft rest⟩
  | cons item items ih =>
    obtain ⟨a, b, hshapes, ha, hb, hfurther, hbehind⟩ := hspells.exists_append
    obtain ⟨es, fs, rfl, rfl, rfl⟩ := Elements.exists_append_of_shapes hshapes
    rw [Elements.marks_append] at hw
    obtain ⟨l, m, rfl, hl, hm⟩ := exists_lexemes_append hw
    rw [decidesItems, Bool.and_eq_true] at hdecides
    rw [List.length_append] at hdepth
    have hdepthl : l.length ≤ depth := by omega
    have hdepthm : m.length ≤ depth := by omega
    have hitem := hitems item List.mem_cons_self
    -- A demand is the last item and spells nothing, so the draft has got what it demands before.
    have hlast (p : Punctuator) (he : item = .part (.demand p)) : draft.hasParts = true := by
      subst he
      obtain rfl : items = [] := List.isEmpty_iff.1 hdecides.1
      have hes : Elements.shapes es = [] := by
        generalize Elements.shapes es = shapes at ha
        cases ha.of_part
        rfl
      obtain rfl := List.map_eq_nil_iff.1 hes
      obtain rfl := List.map_eq_nil_iff.1 hb.spells.eq_nil
      simpa [Shape.hasParts, Shape.slots, Elements.shapes] using hdemand
    obtain ⟨d, hread, hrun⟩ :=
      Item.read_complete hitem hdecides.1 ha hb.spells h hl hm hdepthl hfurther hbehind draft hlast
    -- If there is a demand further behind, what it wants was there before or is in what is read
    -- now.
    have hlater (hany : (items.any fun item => item matches .part (.demand _)) = true) :
        d.hasParts = true ∨ Shape.hasParts (Elements.shapes fs) = true := by
      rw [List.any_cons, hany, Bool.or_true, Elements.shapes_append, Shape.hasParts_append,
        Bool.or_eq_true] at hdemand
      rcases hdemand rfl with hdraft | hes | hfs
      · exact .inl (hrun.hasParts hdraft)
      · exact .inl (hrun.hasParts_of_shapes (ha.isTidy hitem) hes)
      · exact .inr hfs
    obtain ⟨d', hread', hrun'⟩ := ih (fun i hi => hitems i (List.mem_cons_of_mem _ hi)) hdecides.2 hb
      h.of_append.2 hm hdepthm d hlater
    refine ⟨d', ?_, ?_⟩
    · rw [List.append_assoc, readItems, hread]
      exact hread'
    · rw [List.append_assoc]
      exact hrun.append hrun'

end Parts

/-! ### Nodes -/

/-- A derivation of a string has one word. -/
theorem Derives.exists_word_of_string {marks : List Mark} {pieces : List Piece} {node : Node}
    (h : Derives (.kind .stringValue) marks pieces node) :
    ∃ mark, marks = [mark] ∧ mark.word.token.toClass = .string := by
  generalize hgoal : Goal.kind .stringValue = goal at h
  cases h with
  | @production _ p description elements hp hreadable hdescribed hspells =>
    subst hgoal
    obtain rfl := List.mem_singleton.1 hp
    cases description with
    | some c => cases hdescribed rfl
    | none =>
      obtain ⟨a, b, hshapes, ha, hb⟩ := hspells.exists_append
      obtain rfl := hb.eq_nil
      rw [List.append_nil] at hshapes
      subst hshapes
      generalize hshapes : Elements.shapes elements = shapes at ha
      cases ha.of_part with
      | literal l token atom hread =>
        obtain ⟨comments, rfl⟩ := Elements.eq_own_of_shapes hshapes
        exact ⟨_, rfl, List.mem_singleton.1 (Literal.mem_classes hread)⟩
  | query comments hp =>
    subst hgoal
    cases List.mem_singleton.1 hp
  | nonNull => cases hgoal

/-- Where the second token is needed, it is the one behind a single own token. -/
theorem Production.exists_items_of_needsSecond {p : Production} (h : p.needsSecond = true) :
    ∃ q items, p.rule.items = .part q :: items ∧
      (∀ shapes, q.Spells shapes → ∃ token, shapes = [.plain token]) ∧
      items.all Item.mayBeEmpty = false := by
  have hcheck := check (fun p => !p.needsSecond || !p.rule.items.tail.all Item.mayBeEmpty)
    (by decide) p
  rw [h, Bool.not_true, Bool.false_or, Bool.not_eq_true'] at hcheck
  unfold needsSecond at h
  split at h
  · next p items hitems =>
    refine ⟨_, items, hitems, fun shapes hshapes => ?_, by rwa [hitems] at hcheck⟩
    cases hshapes
    exact ⟨_, rfl⟩
  · next items hitems =>
    refine ⟨_, items, hitems, fun shapes hshapes => ?_, by rwa [hitems] at hcheck⟩
    cases hshapes
    exact ⟨_, rfl⟩
  · cases h

section Production

variable {sub : Goal → List Lexeme → Outcome Node} {depth : Nat} {p : Production}
  (hp : p.isReadable = true) {description : Option Child} {elements : List Element}
  (hdescribed : description.isSome = true → p.rule.described = true)
  (hspells : SpellItems p.rule.items (Elements.shapes elements))
  (h : Findable sub (descriptionElements description ++ elements))
  {lexemes : List Lexeme}
  (hw : lexemes.map Lexeme.word =
    (Elements.marks (descriptionElements description ++ elements)).map Mark.word)
include hp hdescribed hspells h hw

/-- A production is read as what it spells. -/
theorem Production.read_complete (hdepth : lexemes.length ≤ depth)
    (hdemand : p.demands = true → Shape.hasParts (Elements.shapes elements) = true)
    {rest : List Lexeme} (hbefore : SpellBefore rest p.rule.items (Elements.shapes elements)) :
    p.read sub depth (lexemes ++ rest) =
      .done (p.finish (descriptionElements description ++ elements)) rest := by
  obtain ⟨draft, hread, hrun⟩ : ∃ draft,
      readItems sub depth p.kind p.items ⟨p.rule.start, []⟩ (lexemes ++ rest) = .done draft rest ∧
        Run (descriptionElements description ++ elements) ⟨p.rule.start, []⟩ draft
          (lexemes ++ rest) rest := by
    have hitems := (Production.items_isReadable hp).2
    have hnone : p.rule.items.all Item.mayBeEmpty = true → False := by
      simp [not_mayBeEmpty hp]
    have hbehind : Clear Item.description.furtherBehind rest := fun _ _ hc => by cases hc
    rw [Elements.marks_append] at hw
    obtain ⟨l, m, rfl, hl, hm⟩ := exists_lexemes_append hw
    rw [List.length_append] at hdepth
    have hdepthl : l.length ≤ depth := by omega
    have hdepthm : m.length ≤ depth := by omega
    -- The rule itself is read from any draft, with or without a description in it.
    have hbody (draft : Draft) : ∃ draft',
        readItems sub depth p.kind p.rule.items draft (m ++ rest) = .done draft' rest ∧
          Run elements draft draft' (m ++ rest) rest :=
      readItems_complete hitems (Production.decides hp) hbefore h.of_append.2 hm hdepthm draft
        fun hd => .inr (hdemand hd)
    -- A production that may be described begins with an item for the description, there or not; the
    -- elements `b` are the space behind it.
    have hbegin {a b : List Element} (ha : Item.description.Spells (Elements.shapes a))
        (hfind : Findable sub (a ++ elements))
        (hl : l.map Lexeme.word = (Elements.marks a).map Mark.word)
        (hb : ∀ draft lexemes, Run b draft draft lexemes lexemes) (hd : p.rule.described = true) :
        ∃ draft, readItems sub depth p.kind p.items ⟨p.rule.start, []⟩ (l ++ (m ++ rest)) =
            .done draft rest ∧
          Run (a ++ b ++ elements) ⟨p.rule.start, []⟩ draft (l ++ (m ++ rest)) rest := by
      obtain ⟨d, hread, hrun⟩ := Item.read_complete (by decide) (Production.decides_description hd)
        ha hspells hfind hl hm hdepthl (fun hempty => (hnone hempty).elim) (fun _ => hbehind)
        ⟨p.rule.start, []⟩ (by simp [Item.description, Item.optional])
      obtain ⟨d', hread', hrun'⟩ := hbody d
      refine ⟨d', ?_, (hrun.append (hb d _)).append hrun'⟩
      rw [Production.items, if_pos hd, readItems, hread]
      exact hread'
    rw [List.append_assoc]
    cases description with
    | none =>
      cases hd : p.rule.described with
      | false =>
        -- No description is looked for, so the first item is the rule's.
        obtain rfl : l = [] := by simpa [descriptionElements] using hl
        obtain ⟨d, hread, hrun⟩ := hbody ⟨p.rule.start, []⟩
        refine ⟨d, ?_, hrun⟩
        rw [Production.items, hd, if_neg (by simp)]
        exact hread
      | true =>
        have hskip : Item.description.Spells (Elements.shapes []) := .skip ..
        exact hbegin hskip h hl .nil hd
    | some c =>
      have hspells' : Item.description.Spells
          (Elements.shapes [.child .description (.kind .stringValue) c]) :=
        .take _ _ (.cons (.child _ _) .nil)
      have hfind : Findable sub ([.child .description (.kind .stringValue) c] ++ elements) := by
        refine ⟨fun e he => h.derived e ?_, fun e he => h.back e ?_⟩
        · simp only [descriptionElements, List.mem_append, List.mem_cons] at he ⊢
          grind
        · simp only [descriptionElements, List.mem_append, List.mem_cons] at he ⊢
          grind
      exact hbegin hspells' hfind (by simpa [descriptionElements] using hl) (Run.space (.lines 0 1))
        (hdescribed rfl)
  rw [Production.read, hread, ← hrun.finish]
  rfl

/-- The production that is chosen is the right one. -/
theorem Goal.choose_complete {goal : Goal} (hgoal : p ∈ goal.productions) (rest : List Lexeme) :
    goal.choose (firstToken (lexemes ++ rest)) (firstToken (lexemes ++ rest).tail) = .take p := by
  -- The choice depends only on the classes of two tokens (`Goal.choose_sample`), and the rule says
  -- with which tokens its items start.
  have hstart : Mark.StartIn (startsOfItems Goal.starts p.rule.items) (Elements.marks elements) := by
    rcases Elements.startIn h.of_append.2.startIn hspells.startIn with hstart | ⟨-, hempty⟩
    · exact hstart
    · rw [Production.not_mayBeEmpty hp] at hempty
      cases hempty
  rw [Elements.marks_append] at hw
  obtain ⟨l, m, rfl, hl, hm⟩ := exists_lexemes_append hw
  obtain ⟨token, htoken, hmem⟩ := hstart.firstIn hm rest
  cases description with
  | some c =>
    have hderives := h.derived (.child .description (.kind .stringValue) c) (by simp [descriptionElements])
    -- Behind a description, which is a single token, the second token decides.
    obtain ⟨mark, hmarks, hclass⟩ := hderives.exists_word_of_string
    obtain ⟨lexeme, rfl, hlexeme⟩ : ∃ lexeme, l = [lexeme] ∧ lexeme.word = mark.word := by
      simpa [descriptionElements, hmarks, List.map_eq_singleton_iff] using hl
    have hclass : lexeme.token.toClass = .string := by
      rw [← hclass, ← hlexeme]
      rfl
    change goal.choose (some lexeme.token) (firstToken (m ++ rest)) = _
    rw [htoken, goal.choose_sample, hclass, goal.choose_sample_second]
    exact choose_of_description hgoal (hdescribed rfl) hmem
  | none =>
    obtain rfl : l = [] := by simpa [descriptionElements] using hl
    rw [List.nil_append, htoken, goal.choose_sample]
    cases hneeds : p.needsSecond with
    | false => exact choose_of_first hgoal hneeds hmem _
    | true =>
      -- The second token is the first one of what the items behind the first item spell.
      obtain ⟨second, hsecond, hmem'⟩ : FirstIn (startsOfItems Goal.starts p.rule.items.tail)
          (m ++ rest).tail := by
        obtain ⟨q, items, hitems, hone, hwords⟩ := Production.exists_items_of_needsSecond hneeds
        rw [hitems] at hspells ⊢
        obtain ⟨es, fs, rfl, ha, hb⟩ := hspells.exists_split
        obtain ⟨token, htoken⟩ := hone _ ha.of_part
        obtain ⟨comments, rfl⟩ := Elements.eq_own_of_shapes htoken
        obtain ⟨lexeme, m, rfl, -, hm⟩ := List.map_eq_cons_iff.1 hm
        rcases Elements.startIn h.of_append.2.of_append.2.startIn hb.startIn with hstart | ⟨-, hempty⟩
        · exact hstart.firstIn hm rest
        · rw [hwords] at hempty
          cases hempty
      rw [hsecond, goal.choose_sample_second]
      exact choose_of_second hgoal hneeds hmem hmem'

end Production

/-! ### Depth -/

/-- What a goal needs of depth besides that for its words: only a selection set may have all the words
of what it stands in. -/
def Goal.rank (goal : Goal) : Nat :=
  if goal = .kind .selectionSet then 0 else 1

theorem Elements.length_marks_le {elements : List Element} {slot : Slot} {goal : Goal} {c : Child}
    (h : .child slot goal c ∈ elements) : c.marks.length ≤ (marks elements).length := by
  obtain ⟨a, b, rfl⟩ := List.append_of_mem h
  simp only [marks_append, marks_cons, Element.marks, List.length_append]
  omega

/-- Whether a part is an own token. -/
def Part.isOwn : Part → Bool
  | punct _ => true
  | bracket _ _ => true
  | keyword _ => true
  | name _ _ => true
  | literal _ => true
  | _ => false

/-- Whether an item is an own token. -/
def Item.isOwn : Item → Bool
  | part q => q.isOwn
  | group _ _ _ => false

/-- A production other than a selection set alone has a word of its own. -/
theorem SpellItems.exists_own {p : Production} (hp : p.isReadable = true) (hne : p ≠ .shorthand)
    {elements : List Element} (h : SpellItems p.rule.items (Elements.shapes elements)) :
    ∃ slot word spare gift, Element.own slot word spare gift ∈ elements := by
  have hcheck := Production.check (fun p => !p.isReadable || p = .shorthand ||
    p.rule.items.any Item.isOwn) (by decide) p
  simp only [hp, hne, Bool.not_true, decide_false, Bool.false_or, List.any_eq_true] at hcheck
  obtain ⟨item, hitem, hown⟩ := hcheck
  cases item with
  | part q =>
    obtain ⟨a, ha, hsub⟩ := h.exists_of_mem hitem
    obtain ⟨slot, token, spare, gift, hmem⟩ :
        ∃ slot token spare gift, Shape.own slot token spare gift ∈ a := by
      cases ha <;> first | exact ⟨_, _, _, _, List.mem_cons_self⟩ | cases hown
    obtain ⟨element, helement, hshape⟩ := List.mem_map.1 (hsub hmem)
    cases element with
    | own slot word spare gift => exact ⟨slot, word, spare, gift, helement⟩
    | _ => cases hshape
  | group => cases hown

theorem Elements.length_marks_lt {elements : List Element} {slot : Slot} {goal : Goal} {c : Child}
    (h : .child slot goal c ∈ elements)
    (hown : ∃ slot word spare gift, Element.own slot word spare gift ∈ elements) :
    c.marks.length < (marks elements).length := by
  obtain ⟨a, b, rfl⟩ := List.append_of_mem h
  obtain ⟨slot', word, spare, gift, hown⟩ := hown
  have hpos {es : List Element} (h : Element.own slot' word spare gift ∈ es) :
      0 < (marks es).length := by
    obtain ⟨a, b, rfl⟩ := List.append_of_mem h
    simp only [marks_append, marks_cons, Element.marks, List.length_append, List.length_cons]
    omega
  simp only [marks_append, marks_cons, Element.marks, List.length_append]
  simp only [List.mem_append, List.mem_cons, reduceCtorEq, false_or] at hown
  rcases hown with hown | hown <;> have := hpos hown <;> omega

/-! ### Goals -/

/-- Reads a goal with a depth of nesting, up to where an exclamation mark may stand. -/
def Goal.readBare (depth : Nat) (goal : Goal) (lexemes : List Lexeme) : Outcome Node :=
  match goal.choose (firstToken lexemes) (firstToken lexemes.tail) with
  | .refuse skip construct expected => .failed ⟨construct, expected⟩ (lexemes.drop skip)
  | .take chosen => chosen.read (read depth) depth lexemes

theorem Goal.read_succ (depth : Nat) (goal : Goal) (lexemes : List Lexeme) :
    goal.read (depth + 1) lexemes =
      if goal = .type then (goal.readBare depth lexemes).andThen wrapType
      else goal.readBare depth lexemes := by
  rw [Goal.read, Goal.readBare]
  cases goal.choose (firstToken lexemes) (firstToken lexemes.tail) with
  | refuse skip construct expected =>
    by_cases htype : goal = type
    · rw [if_pos htype]
      rfl
    · rw [if_neg htype]
  | take chosen => rfl

theorem Goal.wrapType_of_clear {rest : List Lexeme} (h : Clear Goal.type.further rest)
    (node : Node) : wrapType node rest = .done node rest := by
  unfold wrapType
  split
  · have hmem : TokenClass.punct .exclamation ∈ Goal.type.further := by decide
    exact absurd hmem (h _ rfl)
  · rfl

/-- A child has fewer words than what it stands in, or is all of an operation. -/
private theorem length_child {goal : Goal} {p : Production} (description : Option Child)
    {elements : List Element} (hgoal : p ∈ goal.productions) (hp : p.isReadable = true)
    (hspells : SpellItems p.rule.items (Elements.shapes elements)) {slot : Slot} {subgoal : Goal}
    {c : Child} (hc : .child slot subgoal c ∈ elements) :
    2 * c.marks.length + subgoal.rank <
      2 * (Elements.marks (descriptionElements description ++ elements)).length + goal.rank := by
  rw [Elements.marks_append, List.length_append]
  by_cases hne : p = .shorthand
  · subst hne
    obtain ⟨a, b, hshapes, ha, hb⟩ := hspells.exists_append
    obtain rfl := hb.eq_nil
    rw [List.append_nil] at hshapes
    subst hshapes
    generalize hshapes : Elements.shapes elements = shapes at ha
    cases ha.of_part
    obtain ⟨c', rfl⟩ := Elements.eq_child_of_shapes hshapes
    cases List.mem_singleton.1 hc
    have hrank : goal.rank = 1 := by
      refine if_neg ?_
      rintro rfl
      cases List.mem_singleton.1 hgoal
    have hrank' : (Goal.kind .selectionSet).rank = 0 := rfl
    rw [hrank, hrank']
    simp only [Elements.marks_cons, Element.marks, Elements.marks_nil, List.append_nil]
    omega
  · have hlt := Elements.length_marks_lt hc (hspells.exists_own hp hne)
    have hrank : subgoal.rank ≤ 1 := by
      unfold Goal.rank
      split <;> omega
    omega

/-- Whether a reader finds a node among the lexemes of its words, if it has enough depth; a type is
found up to where an exclamation mark may stand. -/
structure Found (goal : Goal) (marks : List Mark) (node : Node) : Prop where
  read : ∀ depth lexemes rest, 2 * marks.length + goal.rank ≤ depth + 1 →
    lexemes.map Lexeme.word = marks.map Mark.word → Clear goal.further rest →
    goal.read (depth + 1) (lexemes ++ rest) = .done node rest
  readBare : goal = .type → node.kind ≠ .nonNullType → ∀ depth lexemes rest,
    2 * marks.length + goal.rank ≤ depth + 1 → lexemes.map Lexeme.word = marks.map Mark.word →
    goal.readBare depth (lexemes ++ rest) = .done node rest

/-- A child that is found with enough depth is found with what depth is left for it. -/
private theorem Found.readBack {goal : Goal} {c : Child} (h : Found goal c.marks c.node)
    (hd : Derives goal c.marks c.pieces c.node) {depth : Nat}
    (hdepth : 2 * c.marks.length + goal.rank ≤ depth) (slot : Slot) :
    (Element.child slot goal c).ReadBack (Goal.read depth) := by
  intro lexemes rest hw hrest
  have hpos := List.length_pos_iff.2 hd.startIn.ne_nil
  obtain ⟨d, rfl⟩ : ∃ d, depth = d + 1 := ⟨depth - 1, by omega⟩
  exact h.read d lexemes rest hdepth hw hrest

section Production

variable {goal : Goal} {p : Production} {description : Option Child} {elements : List Element}
  (hgoal : p ∈ goal.productions) (hreadable : p.isReadable = true)
  (hdescribed : description.isSome = true → p.rule.described = true)
  (hspells : SpellItems p.rule.items (Elements.shapes elements))
  (hdemand : p.demands = true → Shape.hasParts (Elements.shapes elements) = true)
  (hchildren : ∀ slot subgoal c,
    .child slot subgoal c ∈ descriptionElements description ++ elements →
      Derives subgoal c.marks c.pieces c.node ∧ Found subgoal c.marks c.node)
include hgoal hreadable hdescribed hspells hdemand hchildren

/-- A reader finds the node of a production if it finds the children. -/
private theorem Production.readBare_complete {depth : Nat} {lexemes rest : List Lexeme}
    (hdepth : 2 * (Elements.marks (descriptionElements description ++ elements)).length +
      goal.rank ≤ depth + 1)
    (hw : lexemes.map Lexeme.word =
      (Elements.marks (descriptionElements description ++ elements)).map Mark.word)
    (hbefore : SpellBefore rest p.rule.items (Elements.shapes elements)) :
    goal.readBare depth (lexemes ++ rest) =
      .done (p.finish (descriptionElements description ++ elements)) rest := by
  -- The rule has a word of its own, so that a description has fewer words than the whole.
  have hpos : 0 < (Elements.marks elements).length := by
    rcases Elements.startIn (fun slot subgoal c hc =>
        (hchildren slot subgoal c (List.mem_append_right _ hc)).1.startIn)
      hspells.startIn with hstart | ⟨-, hempty⟩
    · exact List.length_pos_iff.2 hstart.ne_nil
    · rw [Production.not_mayBeEmpty hreadable] at hempty
      cases hempty
  -- The depth is counted by words and rank: every child needs less of it than the whole.
  have hback (slot : Slot) (subgoal : Goal) (c : Child)
      (hc : .child slot subgoal c ∈ descriptionElements description ++ elements) :
      (Element.child slot subgoal c).ReadBack (Goal.read depth) := by
    obtain ⟨hd, hfound⟩ := hchildren slot subgoal c hc
    refine hfound.readBack hd ?_ slot
    rcases List.mem_append.1 hc with hmem | hmem
    · obtain ⟨rfl, rfl, -⟩ := mem_descriptionElements hmem
      have hlt := Elements.length_marks_le hmem
      have hrank : (Goal.kind .stringValue).rank = 1 := rfl
      rw [Elements.marks_append, List.length_append] at hdepth
      omega
    · have hlt := length_child description hgoal hreadable hspells hmem
      omega
  have hfind : Findable (Goal.read depth) (descriptionElements description ++ elements) := by
    refine ⟨fun element he => ?_, fun element he => ?_⟩
    · cases element with
      | child slot subgoal c => exact (hchildren slot subgoal c he).1
      | _ => trivial
    · cases element with
      | child slot subgoal c => exact hback slot subgoal c he
      | _ => trivial
  have hlength : lexemes.length ≤ depth := by
    have := length_of_map_word hw
    rw [Elements.marks_append, List.length_append] at hdepth this
    omega
  rw [Goal.readBare, Goal.choose_complete hreadable hdescribed hspells hfind hw hgoal]
  exact Production.read_complete hreadable hdescribed hspells hfind hw hlength hdemand hbefore

private theorem Production.found :
    Found goal (Elements.marks (descriptionElements description ++ elements))
      (p.finish (descriptionElements description ++ elements)) := by
  have hbare {depth : Nat} {lexemes rest : List Lexeme} (hdepth) (hw)
      (hrest : Clear (furtherOfItems Goal.further p.rule.items) rest) :
      goal.readBare depth (lexemes ++ rest) =
        .done (p.finish (descriptionElements description ++ elements)) rest :=
    readBare_complete hgoal hreadable hdescribed hspells hdemand hchildren hdepth hw
      (hspells.before hrest)
  refine ⟨fun depth lexemes rest hdepth hw hrest => ?_,
    fun htype _ depth lexemes rest hdepth hw => hbare hdepth hw ?_⟩
  · have hclear := hrest.mono (Production.further_subset hgoal)
    rw [Goal.read_succ, hbare hdepth hw hclear]
    split
    · next htype =>
      subst htype
      exact Goal.wrapType_of_clear hrest _
    · rfl
  · have hnone : ∀ p ∈ Goal.type.productions, furtherOfItems Goal.further p.rule.items = [] := by
      decide
    rw [hnone p (htype ▸ hgoal)]
    exact fun _ _ hc => by cases hc

end Production

/-- The elements of a query that is nothing but a selection set, with its keyword. -/
def queryElements (comments : List Comment) (c : Child) : List Element :=
  [.own .comments ⟨.name Keyword.query.text, comments⟩ false (.atom (.operation .query)),
    .space .soft, .child .selectionSet (.kind .selectionSet) c]

theorem spellItems_query (comments : List Comment) (c : Child) :
    SpellItems (Production.of .operationDefinition).rule.items
      (Elements.shapes (queryElements comments c)) := by
  have hquery : Literal.operation.read? (.name Keyword.query.text) =
      some (.operation .query) := by decide
  have hspells : SpellItems (Production.of .operationDefinition).rule.items
      ([.own .comments (.name Keyword.query.text) false (.atom (.operation .query))] ++
        ([] ++ ([] ++ ([] ++ ([.space .soft] ++
          ([.child .selectionSet (.kind .selectionSet)] ++ [])))))) :=
    .cons (.part (.literal _ _ _ hquery)) (.cons (.skip ..) (.cons (.skip ..)
      (.cons (.part (.repeated _ _ _ 0)) (.cons (.part (.gap _)) (.cons (.part (.child _ _)) .nil)))))
  exact hspells

/-- A query with its keyword is an operation like others, whose keyword is written. -/
theorem Derives.query_elements (comments : List Comment) (c : Child) :
    (Production.of .operationDefinition).finish
        (descriptionElements none ++ queryElements comments c) =
      .mk .operationDefinition (.operation .query)
        (Node.ofComments .comments comments ++ [(.selectionSet, c.node)]) ∧
    (queryMark comments :: c.marks).map Mark.word =
      (Elements.marks (descriptionElements none ++ queryElements comments c)).map Mark.word :=
  ⟨Production.finish_query comments _ c,
    by simp [descriptionElements, queryElements, queryMark]⟩

/-- A reader finds the node of a derivation. -/
private theorem Derives.found {goal : Goal} {marks : List Mark} {pieces : List Piece}
    {node : Node} (h : Derives goal marks pieces node) : Found goal marks node := by
  induction h with
  | @production goal p description elements hgoal hreadable hdescribed hspells hdemand hquery
      hdescription hchildren ihdescription ihchildren =>
    refine Production.found hgoal hreadable hdescribed hspells hdemand fun slot subgoal c hc => ?_
    rcases List.mem_append.1 hc with hmem | hmem
    · obtain ⟨rfl, rfl, hdesc⟩ := mem_descriptionElements hmem
      exact ⟨hdescription c hdesc, ihdescription c hdesc⟩
    · exact ⟨hchildren slot subgoal c hmem, ihchildren slot subgoal c hmem⟩
  | @query goal c comments hgoal hshorthand hchild ih =>
    -- The query has the words and the node of an operation whose keyword isn't spare.
    have hfound : Found goal (Elements.marks (descriptionElements none ++ queryElements comments c))
        ((Production.of .operationDefinition).finish
          (descriptionElements none ++ queryElements comments c)) := by
      refine Production.found hgoal (by decide) (by simp) (spellItems_query comments c)
        (fun hdemand => by cases hdemand) fun slot subgoal child hc => ?_
      obtain ⟨rfl, rfl, rfl⟩ : slot = .selectionSet ∧ subgoal = .kind .selectionSet ∧ child = c := by
        simpa [descriptionElements, queryElements] using hc
      exact ⟨hchild, ih⟩
    obtain ⟨hnode, hwords⟩ := query_elements comments c
    have hlength : (queryMark comments :: c.marks).length =
        (Elements.marks (descriptionElements none ++ queryElements comments c)).length := by
      simpa using congrArg List.length hwords
    rw [← hnode]
    exact ⟨fun depth lexemes rest hdepth hw => hfound.read depth lexemes rest
        (hlength ▸ hdepth) (hw.trans hwords),
      fun htype hne depth lexemes rest hdepth hw => hfound.readBare htype hne depth lexemes rest
        (hlength ▸ hdepth) (hw.trans hwords)⟩
  | @nonNull marks pieces node comments h hkind ih =>
    refine ⟨fun depth lexemes rest hdepth hw _ => ?_, fun _ hne => absurd rfl hne⟩
    obtain ⟨l, m, rfl, hl, hm⟩ := exists_lexemes_append hw
    obtain ⟨span, rfl⟩ := exists_lexeme hm
    -- The type in front of the exclamation mark is read at the same depth, but without looking for
    -- one.
    have hlength : 2 * marks.length + Goal.type.rank ≤ depth + 1 := by
      rw [List.length_append] at hdepth
      omega
    rw [List.append_assoc, Goal.read_succ, if_pos rfl,
      ih.readBare rfl hkind depth l _ hlength hl]
    rfl

/-- A reader with enough depth finds the node of a derivation. -/
theorem Derives.read {goal : Goal} {marks : List Mark} {pieces : List Piece} {node : Node}
    (h : Derives goal marks pieces node) {depth : Nat} (hdepth : 4 * (marks.length + 1) ≤ depth)
    {lexemes rest : List Lexeme} (hw : lexemes.map Lexeme.word = marks.map Mark.word)
    (hrest : Clear goal.further rest) : goal.read depth (lexemes ++ rest) = .done node rest := by
  have hrank : goal.rank ≤ 1 := by
    unfold Goal.rank
    split <;> omega
  obtain ⟨d, rfl⟩ : ∃ d, depth = d + 1 := ⟨depth - 1, by omega⟩
  exact h.found.read d lexemes rest (by omega) hw hrest

/-- A reader finds the node of a derivation in front of lexemes that don't look like more of just this
node, though they may look like more of other nodes of the goal. -/
theorem Derives.read_before {goal : Goal} {marks : List Mark} {pieces : List Piece} {node : Node}
    (h : Derives goal marks pieces node) (htype : goal ≠ .type) {depth : Nat}
    (hdepth : 4 * (marks.length + 1) ≤ depth) {lexemes rest : List Lexeme}
    (hw : lexemes.map Lexeme.word = marks.map Mark.word)
    (hbefore : ∀ p description elements, p ∈ goal.productions → p.isReadable = true →
      SpellItems p.rule.items (Elements.shapes elements) →
      node = p.finish (descriptionElements description ++ elements) →
      SpellBefore rest p.rule.items (Elements.shapes elements)) :
    goal.read depth (lexemes ++ rest) = .done node rest := by
  have hrank : goal.rank ≤ 1 := by
    unfold Goal.rank
    split <;> omega
  obtain ⟨d, rfl⟩ : ∃ d, depth = d + 1 := ⟨depth - 1, by omega⟩
  rw [Goal.read_succ, if_neg htype]
  cases h with
  | @production _ p description elements hgoal hreadable hdescribed hspells hdemand hquery
      hdescription hchildren =>
    refine Production.readBare_complete hgoal hreadable hdescribed hspells hdemand
      (fun slot subgoal c hc => ?_) (by omega) hw
      (hbefore p description elements hgoal hreadable hspells rfl)
    rcases List.mem_append.1 hc with hmem | hmem
    · obtain ⟨rfl, rfl, hdesc⟩ := mem_descriptionElements hmem
      exact ⟨hdescription c hdesc, (hdescription c hdesc).found⟩
    · exact ⟨hchildren slot subgoal c hmem, (hchildren slot subgoal c hmem).found⟩
  | @query _ c comments hgoal hshorthand hchild =>
    obtain ⟨hnode, hwords⟩ := query_elements comments c
    have hspells := spellItems_query comments c
    have hlength := congrArg List.length hwords
    simp only [List.length_map] at hlength
    rw [← hnode]
    refine Production.readBare_complete hgoal (by decide) (by simp) hspells
      (fun hdemand => by cases hdemand) (fun slot subgoal child hc => ?_)
      (by rw [← hlength]; omega) (hw.trans hwords)
      (hbefore _ none (queryElements comments c) hgoal (by decide) hspells hnode.symm)
    obtain ⟨rfl, rfl, rfl⟩ : slot = .selectionSet ∧ subgoal = .kind .selectionSet ∧ child = c := by
      simpa [descriptionElements, queryElements] using hc
    exact ⟨hchild, hchild.found⟩
  | nonNull => exact absurd rfl htype

end GraphQLTree
