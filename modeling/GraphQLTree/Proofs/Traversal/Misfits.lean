import GraphQLTree.Proofs.Traversal.Rebuild

/-!
# Replacements that fit

Replacements are checked where a changed node is rebuilt. A **survey** is the same walk without checks:
it puts every replacement where it goes, whatever its kind, and notes at each **site**, which is a node
that is left, the children that it has by then. A transformation whose hooks never fail comes to its end
if and only if no child at any site is a **misfit**, and otherwise it stops at the first of them
(`Node.transform_misfits`).
-/

namespace GraphQLTree

variable {σ α β : Type}

/-! ### Sites -/

/-- A node that is left: the node that was entered, and its children after they were transformed, with
the slots of those that they stand for. -/
structure Site where
  entered : Node
  children : List (Slot × Node)

/-- The problems with the children that don't fit their fields, in the order of the fields. -/
def Site.misfits (site : Site) : List Problem :=
  site.entered.kind.fields.flatMap fun field =>
    (site.children.filter fun entry =>
      entry.1 = field.slot && !field.content.accepts entry.2.kind).map
        fun entry => .misplaced entry.2.kind field.slot site.entered.kind

/-- Whether all children at a site are of kinds that the fields accept which they came from. -/
def Site.Fits (site : Site) : Prop :=
  ∀ field ∈ site.entered.kind.fields, ∀ entry ∈ site.children, entry.1 = field.slot →
    field.content.accepts entry.2.kind = true

theorem Site.misfits_eq_nil (site : Site) : site.misfits = [] ↔ site.Fits := by
  simp [misfits, Fits, List.filter_eq_nil_iff]

/-- The problems at some sites, in order. -/
def misfits (sites : List Site) : List Problem :=
  sites.flatMap Site.misfits

theorem misfits_eq_nil (sites : List Site) : misfits sites = [] ↔ ∀ site ∈ sites, site.Fits := by
  simp only [misfits, List.flatMap_eq_nil_iff, Site.misfits_eq_nil]

/-- A misfit is misplaced in a field of the node that was entered. -/
theorem exists_of_mem_misfits {sites : List Site} {problem : Problem} (h : problem ∈ misfits sites) :
    ∃ site ∈ sites, ∃ entry ∈ site.children,
      problem = .misplaced entry.2.kind entry.1 site.entered.kind := by
  obtain ⟨site, hsite, hproblem⟩ := List.mem_flatMap.1 h
  obtain ⟨field, -, hproblem⟩ := List.mem_flatMap.1 hproblem
  obtain ⟨entry, hentry, rfl⟩ := List.mem_map.1 hproblem
  obtain ⟨hmem, hslot⟩ := List.mem_filter.1 hentry
  have hslot : entry.1 = field.slot := of_decide_eq_true (Bool.and_eq_true_iff.1 hslot).1
  exact ⟨site, hsite, entry, hmem, by rw [hslot]⟩

theorem misfits_append (a b : List Site) : misfits (a ++ b) = misfits a ++ misfits b :=
  List.flatMap_append

/-- A computation that knows nothing of sites. -/
def besideSites (x : Transforming σ α) : Transforming (σ × List Site) α := fun (state, sites) =>
  let (result, state) := runFrom x state
  (result, (state, sites))

/-- Notes a site. -/
def noteSite (site : Site) : Transforming (σ × List Site) Unit := fun (state, sites) =>
  (.ok (), (state, sites ++ [site]))

namespace Node

/-- Transforms a node and all its descendants, up to a depth of nesting, without checking that
replacements fit, and notes every site in the order in which nodes are left. -/
def surveyWithin (hooks : Hooks σ) : Nat → Visit → Node → Transforming (σ × List Site) Node
  | 0, _, _ => throw (.placeless .tooDeep)
  | depth + 1, visit, node => do
    let replacement ← besideSites (hooks.enter node visit)
    let entered := replacement.getD node
    let children ←
      remakeChildren (surveyWithin hooks depth) (visit.child entered) [] entered.children
    noteSite ⟨entered, children⟩
    let made := mk entered.kind entered.atom (arrange entered.kind children)
    let final ← besideSites (hooks.leave made visit)
    pure (final.getD made)

/-- The sites of a tree, and the tree that is left in the end. -/
def survey (hooks : Hooks σ) (depth : Nat) (node : Node) (state : σ) :
    List Site × Except Diagnostic Node :=
  let (result, (_, sites)) := runFrom (surveyWithin hooks depth .root node) (state, [])
  (sites, result)

end Node

/-! ### Rebuilding at a site -/

/-- A result, unless there are problems, of which the first is reported. -/
def orProblem (problems : List Problem) (result : α) : Except Problem α :=
  match problems.head? with
  | some problem => .error problem
  | none => .ok result

/-- The problems of some steps are those of each step in turn. -/
theorem mapM_orProblem {f : α → Except Problem β} {g : α → β} {problems : α → List Problem}
    {as : List α} (h : ∀ a ∈ as, f a = orProblem (problems a) (g a)) :
    as.mapM f = orProblem (as.flatMap problems) (as.map g) := by
  induction as with
  | nil => rfl
  | cons a as ih =>
    obtain ⟨ha, has⟩ := List.forall_mem_cons.1 h
    rw [List.mapM_cons, ha, ih has, List.flatMap_cons, orProblem, orProblem, orProblem, List.head?_append]
    cases (problems a).head? with
    | some problem => rfl
    | none => cases (as.flatMap problems).head? <;> rfl

namespace Node

/-- A field takes the children that stand in its slot, if all of them fit. -/
theorem Fits.placeField_children {node : Node} (h : node.Fits) {children : List (Slot × Node)}
    (hslots : children.map Prod.fst = node.children.map Prod.fst) {field : Field}
    (hfield : field ∈ node.kind.fields) :
    Node.placeField node.kind children field =
      orProblem ((children.filter fun entry =>
          entry.1 = field.slot && !field.content.accepts entry.2.kind).map
            fun entry => .misplaced entry.2.kind field.slot node.kind)
        (children.filter fun entry => entry.1 = field.slot) := by
  have hlength (entries : List (Slot × Node)) : (entries.filter fun entry => entry.1 = field.slot).length =
      (entries.map Prod.fst).countP fun slot => slot = field.slot := by
    rw [List.countP_map, List.countP_eq_length_filter]
    rfl
  have hcount : field.arity.Allows (children.filter fun entry => entry.1 = field.slot).length := by
    rw [hlength, hslots, ← hlength]
    simpa [inSlot] using h.count field hfield
  have hfind : (children.filter fun entry =>
        entry.1 = field.slot && !field.content.accepts entry.2.kind).head? =
      (children.filter fun entry => entry.1 = field.slot).find? fun entry =>
        !field.content.accepts entry.2.kind := by
    rw [← List.head?_filter, List.filter_filter]
    simp only [Bool.and_comm]
  unfold Node.placeField orProblem
  simp only [hcount.placed, hcount.not_missing, List.head?_map, hfind]
  cases (children.filter fun entry => entry.1 = field.slot).find? fun entry =>
    !field.content.accepts entry.2.kind with
  | none => rfl
  | some entry => rfl

/-- A node is rebuilt from transformed children if there is no misfit among them, and fails with the
first otherwise. -/
theorem Fits.rebuild_eq {node : Node} (h : node.Fits) {children : List (Slot × Node)}
    (hslots : children.map Prod.fst = node.children.map Prod.fst) :
    rebuild node.kind node.atom children = orProblem (Site.misfits ⟨node, children⟩)
      (.mk node.kind node.atom (arrange node.kind children)) := by
  have hplaced := mapM_orProblem fun field hfield => h.placeField_children hslots hfield
  unfold rebuild Site.misfits
  rw [hplaced, orProblem, orProblem]
  cases (List.flatMap _ node.kind.fields).head? <;> rfl

end Node

/-! ### Following a survey -/

theorem runFrom_bind_fst_error {x : Transforming σ α} {state : σ} {e : Diagnostic}
    (h : (runFrom x state).1 = .error e) (f : α → Transforming σ β) :
    (runFrom (x >>= f) state).1 = .error e := by
  rcases hx : runFrom x state with ⟨e' | a, state'⟩ <;> rw [hx] at h
  · rw [runFrom_bind_error hx]
    exact congrArg Except.error (Except.error.inj h)
  · cases h

/-- Whether a computation does what a survey does until there is a misfit, and fails with the first
misfit. Whatever the survey results in satisfies a condition. -/
def Follows (holds : α → Prop) (x : Transforming σ α) (y : Transforming (σ × List Site) α) : Prop :=
  ∀ state sites, ∃ more,
    (runFrom y (state, sites)).2.2 = sites ++ more ∧
    (∀ a, (runFrom y (state, sites)).1 = .ok a → holds a) ∧
    match (misfits more).head? with
    | some problem => (runFrom x state).1 = .error (.placeless problem)
    | none => runFrom x state = ((runFrom y (state, sites)).1, (runFrom y (state, sites)).2.1)

namespace Follows

variable {holds : α → Prop} {holds' : β → Prop}

theorem pure {a : α} (h : holds a) : Follows (σ := σ) holds (Pure.pure a) (Pure.pure a) :=
  fun _ sites => ⟨[], (List.append_nil sites).symm, fun _ heq => Except.ok.inj heq ▸ h, rfl⟩

theorem throw (diagnostic : Diagnostic) :
    Follows (σ := σ) holds (MonadExcept.throw diagnostic) (MonadExcept.throw diagnostic) :=
  fun _ sites => ⟨[], (List.append_nil sites).symm, nofun, rfl⟩

/-- What knows nothing of sites adds none. -/
theorem beside {x : Transforming σ α} (h : ∀ state a, (runFrom x state).1 = .ok a → holds a) :
    Follows holds x (besideSites x) :=
  fun state sites => ⟨[], (List.append_nil sites).symm, h state, rfl⟩

theorem bind {x : Transforming σ α} {y : Transforming (σ × List Site) α}
    {f : α → Transforming σ β} {g : α → Transforming (σ × List Site) β} (h : Follows holds x y)
    (hnext : ∀ a, holds a → Follows holds' (f a) (g a)) : Follows holds' (x >>= f) (y >>= g) := by
  intro state sites
  obtain ⟨more, hsites, hholds, hx⟩ := h state sites
  rcases hy : runFrom y (state, sites) with ⟨e | a, state', sites'⟩
  · rw [hy] at hsites hx
    rw [runFrom_bind_error hy]
    refine ⟨more, hsites, nofun, ?_⟩
    cases hfirst : (misfits more).head? with
    | some problem =>
      rw [hfirst] at hx
      exact runFrom_bind_fst_error hx f
    | none =>
      rw [hfirst] at hx
      exact runFrom_bind_error hx
  · rw [hy] at hsites hx hholds
    obtain rfl := hsites
    rw [runFrom_bind_ok hy]
    obtain ⟨more', hsites', hholds', hf⟩ := hnext a (hholds a rfl) state' (sites ++ more)
    refine ⟨more ++ more', hsites'.trans (List.append_assoc ..), hholds', ?_⟩
    rw [misfits_append, List.head?_append]
    cases hfirst : (misfits more).head? with
    | some problem =>
      rw [hfirst] at hx
      exact runFrom_bind_fst_error hx f
    | none =>
      rw [hfirst] at hx
      rw [Option.none_or, runFrom_bind_ok hx]
      exact hf

end Follows

namespace Node

/-- Rebuilding a node follows noting its site: it fails if there is a misfit and places all children
otherwise. -/
theorem Fits.rebuild_follows {entered : Node} (h : entered.Fits) {children : List (Slot × Node)}
    (hslots : children.map Prod.fst = entered.children.map Prod.fst) :
    Follows (σ := σ) (fun _ => True)
      (match rebuild entered.kind entered.atom children with
        | .ok node => pure node
        | .error problem => throw (.placeless problem))
      (do
        noteSite ⟨entered, children⟩
        pure (.mk entered.kind entered.atom (arrange entered.kind children))) := by
  intro state sites
  refine ⟨[⟨entered, children⟩], rfl, fun _ _ => trivial, ?_⟩
  have hmisfits : misfits [⟨entered, children⟩] = Site.misfits ⟨entered, children⟩ :=
    List.flatMap_singleton ..
  rw [h.rebuild_eq hslots, hmisfits, orProblem]
  cases (Site.misfits ⟨entered, children⟩).head? <;> rfl

theorem remakeChildren_follows {remake : Visit → Node → Transforming σ Node}
    {survey : Visit → Node → Transforming (σ × List Site) Node} {children : List (Slot × Node)}
    (h : ∀ entry ∈ children, ∀ visit,
      Follows (fun _ => True) (remake visit entry.2) (survey visit entry.2))
    (visit : List Slot → Slot → Visit) (earlier : List Slot) :
    Follows (fun outputs => outputs.map Prod.fst = children.map Prod.fst)
      (remakeChildren remake visit earlier children)
      (remakeChildren survey visit earlier children) := by
  induction children generalizing earlier with
  | nil => exact Follows.pure rfl
  | cons entry rest ih =>
    obtain ⟨slot, child⟩ := entry
    refine (h _ List.mem_cons_self (visit earlier slot)).bind fun output _ => ?_
    refine (ih (fun entry hentry => h entry (List.mem_cons_of_mem _ hentry)) _).bind
      fun outputs houtputs => Follows.pure ?_
    rw [List.map_cons, List.map_cons, houtputs]

/-- Remaking a typed node follows its survey. -/
theorem remakeWithin_follows {hooks : Hooks σ} (hhooks : hooks.KeepsTyped) (depth : Nat)
    (visit : Visit) {node : Node} (typed : node.Typed) :
    Follows (fun _ => True) (remakeWithin hooks depth visit node)
      (surveyWithin hooks depth visit node) := by
  induction depth generalizing visit node with
  | zero => exact Follows.throw _
  | succ depth ih =>
    unfold remakeWithin surveyWithin
    have henter : Follows (fun replacement => ∀ n, replacement = some n → n.Typed)
        (hooks.enter node visit) (besideSites (hooks.enter node visit)) :=
      .beside fun state replacement hrun n hn => hhooks node visit typed state n (hn ▸ hrun)
    refine henter.bind fun replacement hreplacement => ?_
    have hentered : (replacement.getD node).Typed := by
      cases replacement with
      | none => exact typed
      | some n => exact hreplacement n rfl
    refine (remakeChildren_follows (fun entry hentry visit =>
      ih visit (hentered.children entry hentry)) _ _).bind fun children hslots => ?_
    have hleave (rebuilt : Node) : Follows (fun _ => True)
        (do
          let final ← hooks.leave rebuilt visit
          pure (final.getD rebuilt))
        (do
          let final ← besideSites (hooks.leave rebuilt visit)
          pure (final.getD rebuilt)) :=
      (Follows.beside fun _ _ _ => trivial).bind fun final (_ : True) => Follows.pure trivial
    have hrebuild := (hentered.fits.rebuild_follows (σ := σ) hslots).bind fun rebuilt _ =>
      hleave rebuilt
    rw [bind_assoc] at hrebuild
    generalize rebuild _ _ children = outcome at hrebuild ⊢
    cases outcome <;> simpa only [pure_bind] using hrebuild

end Node

/-! ### Hooks that never fail -/

namespace Hooks

/-- Whether hooks never fail. -/
def NeverFail (hooks : Hooks σ) : Prop :=
  ∀ node visit state,
    (∃ replacement state', runFrom (hooks.enter node visit) state = (.ok replacement, state')) ∧
    ∃ replacement state', runFrom (hooks.leave node visit) state = (.ok replacement, state')

/-- Whether hooks replace nodes by nodes of the same kind only. -/
def KeepKinds (hooks : Hooks σ) : Prop :=
  ∀ node visit state replacement,
    ((runFrom (hooks.enter node visit) state).1 = .ok (some replacement) →
      replacement.kind = node.kind) ∧
    ((runFrom (hooks.leave node visit) state).1 = .ok (some replacement) →
      replacement.kind = node.kind)

end Hooks

/-- Whether a computation has results that satisfy a condition and fails for want of depth only. -/
def Lasts (holds : α → Prop) (x : Transforming σ α) : Prop :=
  ∀ state, (∃ a, (runFrom x state).1 = .ok a ∧ holds a) ∨
    (runFrom x state).1 = .error (.placeless .tooDeep)

namespace Lasts

variable {holds : α → Prop} {holds' : β → Prop}

theorem pure {a : α} (h : holds a) : Lasts (σ := σ) holds (Pure.pure a) :=
  fun _ => .inl ⟨a, rfl, h⟩

theorem bind {x : Transforming σ α} (h : Lasts holds x) {f : α → Transforming σ β}
    (hnext : ∀ a, holds a → Lasts holds' (f a)) : Lasts holds' (x >>= f) := by
  intro state
  rcases h state with ⟨a, hok, ha⟩ | herror
  · rcases hx : runFrom x state with ⟨result, state'⟩
    obtain rfl : result = .ok a := by
      rw [hx] at hok
      exact hok
    rw [runFrom_bind_ok hx]
    exact hnext a ha state'
  · exact .inr (runFrom_bind_fst_error herror f)

/-- What a hook that never fails replaces a node by has the node's kind if hooks keep kinds. -/
theorem hook {hook : Hook σ} {node : Node} {visit : Visit}
    (h : ∀ state, ∃ replacement state', runFrom (hook node visit) state = (.ok replacement, state')) :
    Lasts (fun replacement => ∃ state, (runFrom (hook node visit) state).1 = .ok replacement)
      (hook node visit) := by
  intro state
  obtain ⟨replacement, state', hrun⟩ := h state
  exact .inl ⟨replacement, congrArg Prod.fst hrun, state, congrArg Prod.fst hrun⟩

theorem beside {x : Transforming σ α} (h : Lasts holds x) : Lasts holds (besideSites x) :=
  fun (state, _) => h state

end Lasts

namespace Node

variable {hooks : Hooks σ}

/-- Children of which a view is kept are kept in their slots. -/
theorem remakeChildren_lasts {τ γ : Type} {remake : Visit → Node → Transforming τ Node}
    {view : Node → γ} {children : List (Slot × Node)}
    (h : ∀ entry ∈ children, ∀ visit,
      Lasts (fun output => view output = view entry.2) (remake visit entry.2))
    (visit : List Slot → Slot → Visit) (earlier : List Slot) :
    Lasts (fun outputs => outputs.map (Prod.map id view) = children.map (Prod.map id view))
      (remakeChildren remake visit earlier children) := by
  induction children generalizing earlier with
  | nil => exact Lasts.pure rfl
  | cons entry rest ih =>
    obtain ⟨slot, child⟩ := entry
    refine (h _ List.mem_cons_self (visit earlier slot)).bind fun output houtput => ?_
    refine (ih (fun entry hentry => h entry (List.mem_cons_of_mem _ hentry)) _).bind
      fun outputs houtputs => Lasts.pure ?_
    rw [List.map_cons, List.map_cons, houtputs, Prod.map_apply, Prod.map_apply, houtput]

/-- A survey fails for want of depth only if hooks never fail. -/
theorem surveyWithin_lasts (hnever : hooks.NeverFail) (depth : Nat) (visit : Visit) (node : Node) :
    Lasts (fun _ => True) (surveyWithin hooks depth visit node) := by
  induction depth generalizing visit node with
  | zero => exact fun _ => .inr rfl
  | succ depth ih =>
    unfold surveyWithin
    refine (Lasts.hook fun state => (hnever node visit state).1).beside.bind fun replacement _ => ?_
    have hsame (entry : Slot × Node) (visit : Visit) :
        Lasts (fun output => (fun _ => ()) output = (fun _ => ()) entry.2)
          (surveyWithin hooks depth visit entry.2) :=
      fun state => (ih visit entry.2 state).imp_left fun ⟨output, hok, _⟩ => ⟨output, hok, rfl⟩
    refine (remakeChildren_lasts (fun entry _ visit => hsame entry visit) _ _).bind fun children _ => ?_
    have hnote (site : Site) : Lasts (σ := σ × List Site) (fun _ => True) (noteSite site) :=
      fun _ => .inl ⟨(), rfl, trivial⟩
    refine (hnote _).bind fun _ _ => ?_
    exact (Lasts.hook fun state => (hnever _ visit state).2).beside.bind fun final _ => .pure trivial

/-- There is no misfit among children of the kinds of a node's own children. -/
theorem Fits.misfits_of_kinds {entered : Node} (h : entered.Fits) {children : List (Slot × Node)}
    (hkinds : children.map (Prod.map id Node.kind) = entered.children.map (Prod.map id Node.kind)) :
    Site.misfits ⟨entered, children⟩ = [] := by
  refine (Site.misfits_eq_nil _).2 fun field hfield entry hentry hfieldSlot => ?_
  have hmem : (entry.1, entry.2.kind) ∈ entered.children.map (Prod.map id Node.kind) :=
    hkinds ▸ List.mem_map_of_mem hentry
  obtain ⟨own, hown, heq⟩ := List.mem_map.1 hmem
  obtain ⟨hslot, hkind⟩ := Prod.mk.inj heq
  have hkind : own.2.kind = entry.2.kind := hkind
  rw [← hkind]
  refine h.content field hfield own.2 (List.mem_map.2 ⟨own, List.mem_filter.2 ⟨hown, ?_⟩, rfl⟩)
  exact decide_eq_true (hslot.trans hfieldSlot)

/-- Hooks that never fail and keep kinds never keep a node from being rebuilt. -/
theorem remakeWithin_lasts (hhooks : hooks.KeepsTyped) (hnever : hooks.NeverFail)
    (hkinds : hooks.KeepKinds) (depth : Nat) (visit : Visit) {node : Node} (typed : node.Typed) :
    Lasts (fun remade => remade.kind = node.kind) (remakeWithin hooks depth visit node) := by
  induction depth generalizing visit node with
  | zero => exact fun _ => .inr rfl
  | succ depth ih =>
    unfold remakeWithin
    refine (Lasts.hook fun state => (hnever node visit state).1).bind fun replacement hreplacement => ?_
    obtain ⟨state, hrun⟩ := hreplacement
    obtain ⟨hentered, hkind⟩ : (replacement.getD node).Typed ∧ (replacement.getD node).kind = node.kind := by
      cases replacement with
      | none => exact ⟨typed, rfl⟩
      | some n => exact ⟨hhooks node visit typed state n hrun, (hkinds node visit state n).1 hrun⟩
    refine (remakeChildren_lasts (fun entry hentry visit =>
      ih visit (hentered.children entry hentry)) _ _).bind fun children hchildren => ?_
    have hslots : children.map Prod.fst = (replacement.getD node).children.map Prod.fst := by
      simpa [Function.comp_def] using congrArg (List.map Prod.fst) hchildren
    have hrebuild : rebuild (replacement.getD node).kind (replacement.getD node).atom children =
        .ok (mk (replacement.getD node).kind (replacement.getD node).atom
          (arrange (replacement.getD node).kind children)) := by
      rw [hentered.fits.rebuild_eq hslots, hentered.fits.misfits_of_kinds hchildren]
      rfl
    rw [hrebuild]
    refine (Lasts.hook fun state => (hnever _ visit state).2).bind fun final hfinal => .pure ?_
    obtain ⟨state', hrun'⟩ := hfinal
    cases final with
    | none => exact hkind
    | some n => exact ((hkinds _ visit state' n).2 hrun').trans hkind

/-! ### Transforming -/

/-- What a survey comes to when its first misfit is known, and its root has to fit a content in place
of a node. -/
def checked (content : Content) (node : Node) :
    Option Problem → Except Diagnostic Node → Except Diagnostic Node
  | some problem, _ => .error (.placeless problem)
  | none, .error diagnostic => .error diagnostic
  | none, .ok root =>
    if content.accepts root.kind then .ok root
    else .error (.placeless (.irreplaceable node.kind root.kind))

/-- Remaking a typed tree comes to the node that transforming it does. -/
theorem remake_eq_map_transform (hhooks : hooks.KeepsTyped) {content : Content} {node : Node}
    (typed : node.Typed) (hcontent : content.accepts node.kind = true) (depth : Nat) (state : σ) :
    (runFrom (remake hooks depth content node) state).1 =
      (runFrom (transform hooks depth content node) state).1.map Transformed.node :=
  congrArg Prod.fst (transform_remakes hhooks depth typed hcontent state).1

/-- Transforming a typed tree comes to what its survey comes to when it is checked. -/
theorem transform_of_survey (hhooks : hooks.KeepsTyped) {content : Content} {node : Node}
    (typed : node.Typed) (hcontent : content.accepts node.kind = true) (depth : Nat) (state : σ) :
    (runFrom (transform hooks depth content node) state).1.map Transformed.node =
      checked content node (misfits (survey hooks depth node state).1).head?
        (survey hooks depth node state).2 := by
  obtain ⟨sites, hsites, -, hfollows⟩ := remakeWithin_follows hhooks depth .root typed state []
  rw [List.nil_append] at hsites
  have hsurvey : survey hooks depth node state =
      (sites, (runFrom (surveyWithin hooks depth .root node) (state, [])).1) := by
    rw [survey, ← hsites]
  -- The survey says what the walk below the root comes to: the first misfit or what is left of the
  -- root.
  rw [← remake_eq_map_transform hhooks typed hcontent, hsurvey, remake]
  cases hfirst : (misfits sites).head? with
  | some problem =>
    rw [hfirst] at hfollows
    exact runFrom_bind_fst_error hfollows _
  | none =>
    rw [hfirst] at hfollows
    cases hresult : (runFrom (surveyWithin hooks depth .root node) (state, [])).1 with
    | error diagnostic =>
      rw [hresult] at hfollows
      exact congrArg Prod.fst (runFrom_bind_error hfollows)
    | ok root =>
      rw [hresult] at hfollows
      rw [runFrom_bind_ok hfollows, checked]
      cases content.accepts root.kind <;> rfl

private theorem eq_error_of_map {f : α → β} {x : Except Diagnostic α} {e : Diagnostic}
    (h : x.map f = .error e) : x = .error e := by
  cases x with
  | ok a => cases h
  | error e' => exact congrArg Except.error (Except.error.inj h)

private theorem exists_ok_of_map {f : α → β} {x : Except Diagnostic α} {b : β}
    (h : x.map f = .ok b) : ∃ a, x = .ok a := by
  cases x with
  | ok a => exact ⟨a, rfl⟩
  | error e => cases h

/-- Transforming a typed tree with hooks that never fail and keep kinds succeeds if it comes to an
end. -/
theorem exists_transform_of_keepKinds (hhooks : hooks.KeepsTyped) (hnever : hooks.NeverFail)
    (hkinds : hooks.KeepKinds) {content : Content} {node : Node} (typed : node.Typed)
    (hcontent : content.accepts node.kind = true) {depth : Nat} {state : σ}
    (hends : (runFrom (transform hooks depth content node) state).1 ≠ .error (.placeless .tooDeep)) :
    ∃ transformed, (runFrom (transform hooks depth content node) state).1 = .ok transformed := by
  have hremake := remake_eq_map_transform hhooks typed hcontent depth state
  have hlasts : Lasts (fun _ => True) (remake hooks depth content node) := by
    refine (remakeWithin_lasts hhooks hnever hkinds depth .root typed).bind fun root hroot => ?_
    rw [hroot, hcontent]
    exact .pure trivial
  rcases hlasts state with ⟨root, hok, -⟩ | herror
  · exact exists_ok_of_map (hremake.symm.trans hok)
  · exact absurd (eq_error_of_map (hremake.symm.trans herror)) hends

/-- Transforming a typed tree with hooks that never fail, which comes to an end, succeeds if and only if
all children at all sites fit and the root that is left does. Otherwise it fails with the first misfit
in the order in which nodes are left and of their fields, or else with the root. No child is ever
missing, and hooks that keep kinds always succeed. -/
theorem transform_misfits (hhooks : hooks.KeepsTyped) (hnever : hooks.NeverFail) {content : Content}
    {node : Node} (typed : node.Typed) (hcontent : content.accepts node.kind = true) {depth : Nat}
    {state : σ} (hends : (runFrom (transform hooks depth content node) state).1 ≠
      .error (.placeless .tooDeep)) :
    ((∃ transformed, (runFrom (transform hooks depth content node) state).1 = .ok transformed) ↔
      (∀ site ∈ (survey hooks depth node state).1, site.Fits) ∧
        ∃ root, (survey hooks depth node state).2 = .ok root ∧ content.accepts root.kind = true) ∧
    (∀ problem, (misfits (survey hooks depth node state).1).head? = some problem →
      (runFrom (transform hooks depth content node) state).1 = .error (.placeless problem)) ∧
    ((∀ site ∈ (survey hooks depth node state).1, site.Fits) →
      ∃ root, (survey hooks depth node state).2 = .ok root ∧
        (content.accepts root.kind = false →
          (runFrom (transform hooks depth content node) state).1 =
            .error (.placeless (.irreplaceable node.kind root.kind)))) ∧
    (hooks.KeepKinds →
      ∃ transformed, (runFrom (transform hooks depth content node) state).1 = .ok transformed) ∧
    ∀ slot parent, (runFrom (transform hooks depth content node) state).1 ≠
      .error (.placeless (.missing slot parent)) := by
  have hsurvey := transform_of_survey hhooks typed hcontent depth state
  have hlasts : (∃ root, (survey hooks depth node state).2 = .ok root ∧ True) ∨
      (survey hooks depth node state).2 = .error (.placeless .tooDeep) :=
    surveyWithin_lasts hnever depth .root node (state, [])
  have hmissing (problem : Problem) (h : problem ∈ misfits (survey hooks depth node state).1)
      (slot : Slot) (parent : Kind) : problem ≠ .missing slot parent := by
    obtain ⟨site, -, entry, -, rfl⟩ := exists_of_mem_misfits h
    exact Problem.noConfusion
  have hkeep (hkinds : hooks.KeepKinds) :=
    exists_transform_of_keepKinds hhooks hnever hkinds typed hcontent hends
  -- The run is what the survey comes to when it is checked, so what is left is to go through the
  -- cases of that.
  rw [← misfits_eq_nil]
  generalize (runFrom (transform hooks depth content node) state).1 = run at hsurvey hends hkeep ⊢
  generalize misfits (survey hooks depth node state).1 = problems at hsurvey hmissing ⊢
  generalize (survey hooks depth node state).2 = left at hsurvey hlasts ⊢
  cases problems with
  | cons problem problems =>
    obtain rfl : run = .error (.placeless problem) := eq_error_of_map hsurvey
    refine ⟨iff_of_false nofun nofun, ?_, nofun, hkeep, ?_⟩
    · intro first hfirst
      obtain rfl : problem = first := Option.some.inj hfirst
      rfl
    · intro slot parent h
      exact hmissing problem List.mem_cons_self slot parent
        (congrArg Diagnostic.problem (Except.error.inj h))
  | nil =>
    rcases hlasts with ⟨root, rfl, -⟩ | rfl
    · rw [List.head?_nil, checked] at hsurvey
      by_cases haccepts : content.accepts root.kind = true
      · rw [if_pos haccepts] at hsurvey
        obtain ⟨transformed, rfl⟩ := exists_ok_of_map hsurvey
        refine ⟨iff_of_true ⟨transformed, rfl⟩ ⟨rfl, root, rfl, haccepts⟩, ?_, ?_, hkeep, ?_⟩
        · intro problem h
          cases h
        · exact fun _ => ⟨root, rfl, fun hnot => absurd haccepts (by rw [hnot]; exact Bool.false_ne_true)⟩
        · intro slot parent h
          cases h
      · rw [if_neg haccepts] at hsurvey
        obtain rfl := eq_error_of_map hsurvey
        refine ⟨iff_of_false ?_ ?_, ?_, fun _ => ⟨root, rfl, fun _ => rfl⟩, hkeep, ?_⟩
        · rintro ⟨transformed, h⟩
          cases h
        · rintro ⟨-, root', hroot, h⟩
          exact haccepts (Except.ok.inj hroot ▸ h)
        · intro problem h
          cases h
        · intro slot parent h
          exact Problem.noConfusion (congrArg Diagnostic.problem (Except.error.inj h))
    · exact absurd (eq_error_of_map hsurvey) hends

end Node

/-- Hooks that put null in place of all names on leaving them. -/
def Hooks.nulling : Hooks Unit where
  enter _ _ := pure none
  leave node _ := pure (if node.kind = .name then some (.mk .nullValue .none []) else none)

/-- Null can't be the name of a type. -/
theorem Node.transform_misfits_nulling :
    let named : Node := .mk .namedType .none [(.name, .ofName "A")]
    (Hooks.nulling.KeepsTyped ∧ Hooks.nulling.NeverFail ∧ named.Typed ∧
        Content.type.accepts .namedType = true ∧
        (runFrom (transform Hooks.nulling 2 .type named) ()).1 ≠ .error (.placeless .tooDeep)) ∧
      (misfits (survey Hooks.nulling 2 named ()).1).head? =
        some (.misplaced .nullValue .name .namedType) ∧
      (runFrom (transform Hooks.nulling 2 .type named) ()).1 =
        .error (.placeless (.misplaced .nullValue .name .namedType)) := by
  have hhooks : Hooks.nulling.KeepsTyped := fun _ _ _ _ _ h => nomatch Except.ok.inj h
  have hnever : Hooks.nulling.NeverFail := fun _ _ _ => ⟨⟨_, _, rfl⟩, _, _, rfl⟩
  have typed : (Node.mk .namedType .none [(.name, .ofName "A")]).Typed := by decide
  have haccepts : Content.type.accepts .namedType = true := by decide
  have hends : (runFrom (transform Hooks.nulling 2 .type
      (.mk .namedType .none [(.name, .ofName "A")])) ()).1 ≠ .error (.placeless .tooDeep) :=
    fun h => Problem.noConfusion (congrArg Diagnostic.problem (Except.error.inj h))
  have hfirst : (misfits (survey Hooks.nulling 2
      (.mk .namedType .none [(.name, .ofName "A")]) ()).1).head? =
        some (.misplaced .nullValue .name .namedType) := rfl
  exact ⟨⟨hhooks, hnever, typed, haccepts, hends⟩, hfirst,
    (Node.transform_misfits hhooks hnever typed haccepts hends).2.1 _ hfirst⟩

end GraphQLTree
