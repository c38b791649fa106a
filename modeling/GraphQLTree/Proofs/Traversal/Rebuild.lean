import GraphQLTree.Proofs.Traversal.Runs
import GraphQLTree.Proofs.Tree.Typed

/-!
# Sharing is unobservable

A transformation keeps a node none of whose children has changed and rebuilds the others. **Remaking**
a tree is the same walk with the same hooks, but every node in it is rebuilt from its transformed
children. Typed nodes are what rebuilding makes of their own children (`Node.rebuild_children`), so
both walks run their hooks on the same nodes in the same order and come to the same end
(`Node.transform_remake`), as long as hooks replace nodes by typed nodes on entering.
-/

namespace GraphQLTree

/-! ### Rebuilding a node from its own children -/

/-- So many children as a field can have are all placed in it. -/
theorem Arity.Allows.placed {α : Type} {arity : Arity} {all : List α}
    (h : arity.Allows all.length) : (if arity = .list then all else all.take 1) = all := by
  cases arity with
  | list => rfl
  | one => exact List.take_of_length_le (Nat.le_of_eq h)
  | optional => exact List.take_of_length_le h

/-- No child is missing if there are as many as a field can have. -/
theorem Arity.Allows.not_missing {α : Type} {arity : Arity} {all : List α}
    (h : arity.Allows all.length) : (all.isEmpty && arity = .one) = false := by
  cases arity with
  | one => cases all with
    | nil => cases h
    | cons first rest => rfl
  | _ => simp

namespace Node

/-- A field takes the children that stand in its slot. -/
theorem Fits.placeField {node : Node} (h : node.Fits) {field : Field}
    (hfield : field ∈ node.kind.fields) :
    placeField node.kind node.children field =
      .ok (node.children.filter fun entry => entry.1 = field.slot) := by
  have hcount : field.arity.Allows
      (node.children.filter fun entry => entry.1 = field.slot).length := by
    simpa [inSlot] using h.count field hfield
  have hcontent : (node.children.filter fun entry => entry.1 = field.slot).find?
      (fun entry => !field.content.accepts entry.2.kind) = none := by
    refine List.find?_eq_none.2 fun entry hentry => ?_
    have := h.content field hfield entry.2 (List.mem_map.2 ⟨entry, hentry, rfl⟩)
    simp [this]
  unfold Node.placeField
  simp only [hcount.placed, hcount.not_missing, hcontent]
  rfl

private theorem mapM_eq_ok {ε α β : Type} {f : α → Except ε β} {g : α → β} {as : List α}
    (h : ∀ a ∈ as, f a = .ok (g a)) : as.mapM f = .ok (as.map g) := by
  induction as with
  | nil => rfl
  | cons a as ih =>
    rw [List.mapM_cons, h a List.mem_cons_self, ih fun b hb => h b (List.mem_cons_of_mem a hb)]
    rfl

/-- A node whose children are as the schema describes them is rebuilt from them as it is. -/
theorem Fits.rebuild_children {node : Node} (h : node.Fits) :
    rebuild node.kind node.atom node.children = .ok node := by
  obtain ⟨kind, atom, children⟩ := node
  have hplaced : kind.fields.mapM (Node.placeField kind children) =
      .ok (kind.fields.map fun field => children.filter fun entry => entry.1 = field.slot) :=
    mapM_eq_ok fun field hfield => h.placeField hfield
  have harranged : (kind.fields.map fun field =>
      children.filter fun entry => entry.1 = field.slot).flatten = children :=
    h.arranged.symm
  unfold rebuild
  simp only [Node.kind, Node.atom, Node.children, hplaced]
  exact congrArg (fun children => Except.ok (Node.mk kind atom children)) harranged

/-! ### Remaking -/

variable {σ : Type}

/-- Remakes children, of which those in the `earlier` slots have been remade before. -/
def remakeChildren (remake : Visit → Node → Transforming σ Node)
    (visit : List Slot → Slot → Visit) (earlier : List Slot) :
    List (Slot × Node) → Transforming σ (List (Slot × Node))
  | [] => pure []
  | (slot, child) :: rest => do
    let output ← remake (visit earlier slot) child
    let outputs ← remakeChildren remake visit (earlier ++ [slot]) rest
    pure ((slot, output) :: outputs)

/-- Transforms a node and all its descendants, up to a depth of nesting, and rebuilds each of
them. -/
def remakeWithin (hooks : Hooks σ) : Nat → Visit → Node → Transforming σ Node
  | 0, _, _ => throw (.placeless .tooDeep)
  | depth + 1, visit, node => do
    let replacement ← hooks.enter node visit
    let entered := replacement.getD node
    let children ←
      remakeChildren (remakeWithin hooks depth) (visit.child entered) [] entered.children
    let rebuilt ←
      match rebuild entered.kind entered.atom children with
      | .ok node => pure node
      | .error problem => throw (.placeless problem)
    let final ← hooks.leave rebuilt visit
    pure (final.getD rebuilt)

/-- Transforms a tree as something of a content, which its root has to fit, and rebuilds all of
it. -/
def remake (hooks : Hooks σ) (depth : Nat) (content : Content) (node : Node) :
    Transforming σ Node := do
  let remade ← remakeWithin hooks depth .root node
  if content.accepts remade.kind then pure remade
  else throw (.placeless (.irreplaceable node.kind remade.kind))

end Node

/-! ### Agreement of runs -/

variable {σ α β α' β' : Type}

/-- Whether two computations fail alike, leave the same state, and have results of which the second
is a view of the first, which satisfies a condition. -/
def Agrees (view : α → β) (holds : α → Prop) (x : Transforming σ α) (y : Transforming σ β) : Prop :=
  ∀ state, runFrom y state = ((runFrom x state).1.map view, (runFrom x state).2) ∧
    ∀ a, (runFrom x state).1 = .ok a → holds a

namespace Agrees

variable {view : α → β} {holds : α → Prop} {view' : α' → β'} {holds' : α' → Prop}

theorem pure {a : α} {b : β} (hb : view a = b) (ha : holds a) :
    Agrees (σ := σ) view holds (Pure.pure a) (Pure.pure b) := by
  intro state
  subst hb
  exact ⟨rfl, fun a' h => Except.ok.inj h ▸ ha⟩

theorem throw (diagnostic : Diagnostic) :
    Agrees (σ := σ) view holds (MonadExcept.throw diagnostic) (MonadExcept.throw diagnostic) :=
  fun _ => ⟨rfl, nofun⟩

/-- A computation agrees with itself. -/
theorem refl (holds : α → Prop) {x : Transforming σ α} (h : ∀ state a, (runFrom x state).1 = .ok a → holds a) :
    Agrees id holds x x := by
  intro state
  refine ⟨?_, h state⟩
  rcases runFrom x state with ⟨e | a, state'⟩ <;> rfl

/-- Steps that agree one after the other make computations that agree. -/
theorem bind {x : Transforming σ α} {y : Transforming σ β} {f : α → Transforming σ α'}
    {g : β → Transforming σ β'} (h : Agrees view holds x y)
    (hnext : ∀ a, holds a → Agrees view' holds' (f a) (g (view a))) :
    Agrees view' holds' (x >>= f) (y >>= g) := by
  intro state
  obtain ⟨hy, hholds⟩ := h state
  rcases hx : runFrom x state with ⟨e | a, state'⟩
  · rw [hx] at hy
    rw [runFrom_bind_error hx, runFrom_bind_error hy]
    exact ⟨rfl, nofun⟩
  · rw [hx] at hy hholds
    rw [runFrom_bind_ok hx, runFrom_bind_ok hy]
    exact hnext a (hholds a rfl) state'

end Agrees

/-! ### Transforming and remaking agree -/

namespace Hooks

/-- Whether hooks replace typed nodes by typed nodes on entering. -/
def KeepsTyped (hooks : Hooks σ) : Prop :=
  ∀ node visit, node.Typed → ∀ state replacement,
    (runFrom (hooks.enter node visit) state).1 = .ok (some replacement) → replacement.Typed

end Hooks

namespace Node

/-- What a transformation makes of a node agrees with a remade one. A node in which nothing was
replaced is still the same. -/
def Remakes (node : Node) : Transforming σ Transformed → Transforming σ Node → Prop :=
  Agrees Transformed.node fun transformed => transformed.changed = false → transformed.node = node

/-- Transformed children without their flags. -/
def unflag (outputs : List (Slot × Transformed)) : List (Slot × Node) :=
  outputs.map fun entry => (entry.1, entry.2.node)

theorem transformChildren_remakes {transform : Visit → Node → Transforming σ Transformed}
    {remake : Visit → Node → Transforming σ Node} {children : List (Slot × Node)}
    (h : ∀ entry ∈ children, ∀ visit,
      entry.2.Remakes (transform visit entry.2) (remake visit entry.2))
    (visit : List Slot → Slot → Visit) (earlier : List Slot) :
    Agrees unflag
      (fun outputs => (outputs.any fun entry => entry.2.changed) = false → unflag outputs = children)
      (transformChildren transform visit earlier children)
      (remakeChildren remake visit earlier children) := by
  induction children generalizing earlier with
  | nil => exact Agrees.pure rfl fun _ => rfl
  | cons entry rest ih =>
    obtain ⟨slot, child⟩ := entry
    refine (h _ List.mem_cons_self (visit earlier slot)).bind fun output houtput => ?_
    refine (ih (fun entry hentry => h entry (List.mem_cons_of_mem _ hentry)) _).bind
      fun outputs houtputs => Agrees.pure rfl fun hchanged => ?_
    rw [List.any_cons, Bool.or_eq_false_iff] at hchanged
    have hchild : output.node = child := houtput hchanged.1
    rw [← houtputs hchanged.2, ← hchild]
    rfl

/-- Leaving a node that is still the same if nothing in it has changed. -/
theorem leave_remakes (hooks : Hooks σ) (visit : Visit) {rebuilt node : Node} {changed : Bool}
    (h : changed = false → rebuilt = node) :
    node.Remakes
      (do
        let final ← hooks.leave rebuilt visit
        pure ⟨final.getD rebuilt, changed || final.isSome⟩)
      (do
        let final ← hooks.leave rebuilt visit
        pure (final.getD rebuilt)) := by
  refine (Agrees.refl (fun _ => True) fun _ _ _ => trivial).bind fun final _ =>
    Agrees.pure rfl fun hchanged => ?_
  rw [Bool.or_eq_false_iff] at hchanged
  obtain rfl : final = none := by simpa using hchanged.2
  exact h hchanged.1

/-- Transforming a typed node agrees with remaking it. -/
theorem transformWithin_remakes {hooks : Hooks σ} (hhooks : hooks.KeepsTyped) (depth : Nat)
    (visit : Visit) {node : Node} (typed : node.Typed) :
    node.Remakes (transformWithin hooks depth visit node) (remakeWithin hooks depth visit node) := by
  induction depth generalizing visit node with
  | zero => exact Agrees.throw _
  | succ depth ih =>
    unfold transformWithin remakeWithin
    refine (Agrees.refl (fun replacement => ∀ n, replacement = some n → n.Typed)
      fun state replacement hrun n hn =>
        hhooks node visit typed state n (hn ▸ hrun)).bind fun replacement hreplacement => ?_
    have hentered : (replacement.getD node).Typed := by
      cases replacement with
      | none => exact typed
      | some n => exact hreplacement n rfl
    refine (transformChildren_remakes (fun entry hentry visit =>
      ih visit (hentered.children entry hentry)) _ _).bind fun outputs houtputs => ?_
    have hunflag : (outputs.map fun entry => (entry.1, entry.2.node)) = unflag outputs := rfl
    simp only [pure_bind, id, hunflag]
    cases hchanged : outputs.any fun entry => entry.2.changed with
    | true =>
      cases rebuild (replacement.getD node).kind (replacement.getD node).atom (unflag outputs) with
      | error problem =>
        have hthrow : Agrees (σ := σ) id (fun _ : Node => True) (throw (.placeless problem))
            (throw (.placeless problem)) := Agrees.throw _
        exact hthrow.bind fun rebuilt _ => leave_remakes hooks visit (by simp)
      | ok rebuilt => exact leave_remakes hooks visit (by simp)
    | false =>
      -- Nothing in the node has changed, so rebuilding makes the same node of it.
      rw [houtputs hchanged, hentered.fits.rebuild_children]
      refine leave_remakes hooks visit fun hkept => ?_
      obtain rfl : replacement = none := by simpa using hkept
      rfl

/-! ### Logs -/

/-- A call of a hook. -/
structure Call where
  entering : Bool
  node : Node
  visit : Visit

end Node

open Node (Call)

namespace Hooks

/-- Hooks that note each call before they do what they do. -/
def logged (hooks : Hooks σ) : Hooks (σ × List Call) where
  enter node visit := fun (state, calls) =>
    let (result, state) := runFrom (hooks.enter node visit) state
    (result, (state, calls ++ [⟨true, node, visit⟩]))
  leave node visit := fun (state, calls) =>
    let (result, state) := runFrom (hooks.leave node visit) state
    (result, (state, calls ++ [⟨false, node, visit⟩]))

theorem KeepsTyped.logged {hooks : Hooks σ} (h : hooks.KeepsTyped) : hooks.logged.KeepsTyped :=
  fun node visit typed (state, _) replacement hrun => h node visit typed state replacement hrun

/-- Whether hooks replace nothing. -/
def ReplaceNothing (hooks : Hooks σ) : Prop :=
  ∀ node visit state,
    (∀ replacement, (runFrom (hooks.enter node visit) state).1 = .ok replacement →
      replacement = none) ∧
    ∀ replacement, (runFrom (hooks.leave node visit) state).1 = .ok replacement → replacement = none

/-- Whether hooks replace nothing and never fail. -/
def Quiet (hooks : Hooks σ) : Prop :=
  ∀ node visit state,
    (∃ state', runFrom (hooks.enter node visit) state = (.ok none, state')) ∧
    ∃ state', runFrom (hooks.leave node visit) state = (.ok none, state')

theorem Quiet.replaceNothing {hooks : Hooks σ} (h : hooks.Quiet) : hooks.ReplaceNothing := by
  intro node visit state
  obtain ⟨⟨state', henter⟩, state'', hleave⟩ := h node visit state
  rw [henter, hleave]
  exact ⟨fun _ heq => (Except.ok.inj heq).symm, fun _ heq => (Except.ok.inj heq).symm⟩

end Hooks

namespace Node

/-- Transforming a typed tree as something that it is agrees with remaking it. -/
theorem transform_remakes {hooks : Hooks σ} (hhooks : hooks.KeepsTyped) (depth : Nat)
    {content : Content} {node : Node} (typed : node.Typed)
    (hcontent : content.accepts node.kind = true) :
    node.Remakes (transform hooks depth content node) (remake hooks depth content node) := by
  refine (transformWithin_remakes hhooks depth .root typed).bind fun transformed hkept => ?_
  cases hchanged : transformed.changed with
  | true =>
    cases content.accepts transformed.node.kind with
    | true => exact Agrees.pure rfl (by simp [hchanged])
    | false => exact Agrees.throw _
  | false =>
    rw [hkept hchanged, hcontent]
    exact Agrees.pure (hkept hchanged) fun _ => hkept hchanged

/-! ### Hooks that replace nothing -/

theorem transformChildren_of_unchanged {transform : Visit → Node → Transforming σ Transformed}
    {children : List (Slot × Node)}
    (h : ∀ entry ∈ children, ∀ visit, Agrees id (· = ⟨entry.2, false⟩) (transform visit entry.2)
      (transform visit entry.2))
    (visit : List Slot → Slot → Visit) (earlier : List Slot) :
    Agrees id (· = children.map fun entry => (entry.1, ⟨entry.2, false⟩))
      (transformChildren transform visit earlier children)
      (transformChildren transform visit earlier children) := by
  induction children generalizing earlier with
  | nil => exact Agrees.pure rfl rfl
  | cons entry rest ih =>
    obtain ⟨slot, child⟩ := entry
    refine (h _ List.mem_cons_self (visit earlier slot)).bind fun output houtput => ?_
    refine (ih (fun entry hentry => h entry (List.mem_cons_of_mem _ hentry)) _).bind
      fun outputs houtputs => Agrees.pure rfl ?_
    rw [houtput, houtputs]
    rfl

/-- Where nothing is replaced, a transformation has no other result than its input. -/
theorem transformWithin_of_replaceNothing {hooks : Hooks σ} (h : hooks.ReplaceNothing) (depth : Nat)
    (visit : Visit) (node : Node) :
    Agrees id (· = ⟨node, false⟩) (transformWithin hooks depth visit node)
      (transformWithin hooks depth visit node) := by
  induction depth generalizing visit node with
  | zero => exact Agrees.throw _
  | succ depth ih =>
    unfold transformWithin
    refine (Agrees.refl (· = none) fun state => (h node visit state).1).bind
      fun replacement hreplacement => ?_
    obtain rfl := hreplacement
    refine (transformChildren_of_unchanged (fun entry _ visit => ih visit entry.2) _ _).bind
      fun outputs houtputs => ?_
    have hchanged : (outputs.any fun entry => entry.2.changed) = false := by
      rw [houtputs]
      simp
    simp only [pure_bind, id, hchanged]
    refine (Agrees.refl (· = none) fun state => (h node visit state).2).bind
      fun final hfinal => Agrees.pure rfl ?_
    rw [hfinal]
    rfl

theorem transformChildren_of_quiet {transform : Visit → Node → Transforming σ Transformed}
    {children : List (Slot × Node)}
    (h : ∀ entry ∈ children, ∀ visit state, ∃ transformed state',
      runFrom (transform visit entry.2) state = (.ok transformed, state'))
    (visit : List Slot → Slot → Visit) (earlier : List Slot) (state : σ) :
    ∃ outputs state', runFrom (transformChildren transform visit earlier children) state =
      (.ok outputs, state') := by
  induction children generalizing earlier state with
  | nil => exact ⟨[], state, rfl⟩
  | cons entry rest ih =>
    obtain ⟨slot, child⟩ := entry
    obtain ⟨output, state', hchild⟩ := h _ List.mem_cons_self (visit earlier slot) state
    obtain ⟨outputs, state'', hrest⟩ :=
      ih (fun entry hentry => h entry (List.mem_cons_of_mem _ hentry)) (earlier ++ [slot]) state'
    refine ⟨(slot, output) :: outputs, state'', ?_⟩
    rw [transformChildren, runFrom_bind_ok hchild, runFrom_bind_ok hrest]
    rfl

/-- What holds of each member of a list from some bound on holds of all of them from one bound on. -/
private theorem exists_bound_forall_mem {γ : Type} {p : γ → Nat → Prop} {as : List γ}
    (h : ∀ a ∈ as, ∃ bound, ∀ n, bound ≤ n → p a n) :
    ∃ bound, ∀ a ∈ as, ∀ n, bound ≤ n → p a n := by
  induction as with
  | nil => exact ⟨0, nofun⟩
  | cons a as ih =>
    obtain ⟨first, hfirst⟩ := h a List.mem_cons_self
    obtain ⟨rest, hrest⟩ := ih fun b hb => h b (List.mem_cons_of_mem a hb)
    refine ⟨max first rest, List.forall_mem_cons.2 ⟨fun n hn => hfirst n (by omega), ?_⟩⟩
    exact fun b hb n hn => hrest b hb n (by omega)

/-- Where nothing is replaced and nothing fails, a transformation of enough depth comes to an end. -/
theorem exists_transformWithin_of_quiet {hooks : Hooks σ} (h : hooks.Quiet) (node : Node) :
    ∃ bound, ∀ depth, bound ≤ depth → ∀ visit state, ∃ transformed state',
      runFrom (transformWithin hooks depth visit node) state = (.ok transformed, state') := by
  induction node using Node.induction with
  | step kind atom children ih =>
    -- The depth that is enough for all children.
    obtain ⟨bound, hbound⟩ : ∃ bound, ∀ entry ∈ children, ∀ depth, bound ≤ depth →
        ∀ visit state, ∃ transformed state',
          runFrom (transformWithin hooks depth visit entry.2) state = (.ok transformed, state') :=
      exists_bound_forall_mem ih
    refine ⟨bound + 1, fun depth hdepth visit state => ?_⟩
    obtain ⟨depth, rfl⟩ : ∃ d, depth = d + 1 := ⟨depth - 1, by omega⟩
    obtain ⟨state₁, henter⟩ := (h (mk kind atom children) visit state).1
    obtain ⟨outputs, state₂, houtputs⟩ := transformChildren_of_quiet
      (fun entry hentry => hbound entry hentry depth (by omega))
      (visit.child (mk kind atom children)) [] state₁
    obtain ⟨state₃, hleave⟩ := (h (mk kind atom children) visit state₂).2
    have hunchanged := ((transformChildren_of_unchanged (fun entry _ visit =>
      transformWithin_of_replaceNothing h.replaceNothing depth visit entry.2)
      (visit.child (mk kind atom children)) [] state₁).2 outputs (by rw [houtputs]))
    have hchanged : (outputs.any fun entry => entry.2.changed) = false := by
      rw [hunchanged]
      simp
    refine ⟨⟨mk kind atom children, false⟩, state₃, ?_⟩
    rw [transformWithin, runFrom_bind_ok henter]
    simp only [Option.getD_none, Node.children]
    rw [runFrom_bind_ok houtputs]
    simp only [hchanged, pure_bind]
    exact runFrom_bind_ok hleave

/-- Where nothing is replaced, transforming a tree has no other result than the tree. -/
theorem transform_of_replaceNothing {hooks : Hooks σ} (h : hooks.ReplaceNothing) (depth : Nat)
    (content : Content) (node : Node) :
    Agrees id (· = ⟨node, false⟩) (transform hooks depth content node)
      (transform hooks depth content node) := by
  refine (transformWithin_of_replaceNothing h depth .root node).bind fun transformed hkept => ?_
  obtain rfl := hkept
  exact Agrees.pure rfl rfl

/-- Where nothing is replaced and nothing fails, transforming a tree with enough depth gives the
tree. -/
theorem exists_transform_of_quiet {hooks : Hooks σ} (h : hooks.Quiet) (content : Content)
    (node : Node) :
    ∃ bound, ∀ depth, bound ≤ depth → ∀ state,
      (runFrom (transform hooks depth content node) state).1 = .ok ⟨node, false⟩ := by
  obtain ⟨bound, hbound⟩ := exists_transformWithin_of_quiet h node
  refine ⟨bound, fun depth hdepth state => ?_⟩
  obtain ⟨transformed, state', hrun⟩ := hbound depth hdepth .root state
  obtain rfl : transformed = ⟨node, false⟩ :=
    (transformWithin_of_replaceNothing h.replaceNothing depth .root node state).2 _ (by rw [hrun])
  rw [transform, runFrom_bind_ok hrun]
  rfl

/-- Sharing is unobservable: transforming a typed tree has the result or the error, the effects and
the calls of hooks, with the same nodes at the same places, of remaking it. Rebuilding makes of the
children of any typed node that node itself, and hooks that replace nothing leave the tree as it
is. -/
theorem transform_remake {hooks : Hooks σ} (hhooks : hooks.KeepsTyped) {content : Content}
    {node : Node} (typed : node.Typed) (hcontent : content.accepts node.kind = true) :
    (∀ depth state, runFrom (remake hooks depth content node) state =
      ((runFrom (transform hooks depth content node) state).1.map Transformed.node,
        (runFrom (transform hooks depth content node) state).2)) ∧
    (∀ depth state, runFrom (remake hooks.logged depth content node) (state, []) =
      ((runFrom (transform hooks.logged depth content node) (state, [])).1.map Transformed.node,
        (runFrom (transform hooks.logged depth content node) (state, [])).2)) ∧
    (∀ other : Node, other.Typed → rebuild other.kind other.atom other.children = .ok other) ∧
    (hooks.ReplaceNothing → ∀ depth state transformed,
      (runFrom (transform hooks depth content node) state).1 = .ok transformed →
        transformed.node = node) ∧
    (hooks.Quiet → ∃ bound, ∀ depth, bound ≤ depth → ∀ state,
      (runFrom (transform hooks depth content node) state).1 = .ok ⟨node, false⟩) := by
  refine ⟨fun depth state => (transform_remakes hhooks depth typed hcontent state).1,
    fun depth state => (transform_remakes hhooks.logged depth typed hcontent (state, [])).1,
    fun other hother => hother.fits.rebuild_children, ?_, fun h => exists_transform_of_quiet h _ _⟩
  intro h depth state transformed hrun
  rw [(transform_of_replaceNothing h depth content node state).2 transformed hrun]

end Node

/-- Hooks that rename all names on leaving them. -/
def Hooks.renaming (name : String) : Hooks Unit where
  enter _ _ := pure none
  leave node _ := pure (if node.kind = .name then some (.ofName name) else none)

theorem Node.transform_remake_renaming :
    let named (name : String) : Node := .mk .namedType .none [(.name, .ofName name)]
    ((Hooks.renaming "B").KeepsTyped ∧ (named "A").Typed ∧ Content.type.accepts .namedType = true) ∧
      runFrom (remake (Hooks.renaming "B") 2 .type (named "A")) () = (.ok (named "B"), ()) ∧
      (runFrom (transform (Hooks.renaming "B") 2 .type (named "A")) ()).1.map Transformed.node =
        .ok (named "B") := by
  have hhooks : (Hooks.renaming "B").KeepsTyped := fun _ _ _ _ _ h => nomatch Except.ok.inj h
  have typed : (Node.mk .namedType .none [(.name, .ofName "A")]).Typed := by decide
  have haccepts : Content.type.accepts .namedType = true := by decide
  refine ⟨⟨hhooks, typed, haccepts⟩, ?_, rfl⟩
  exact (Node.transform_remake hhooks typed haccepts).1 2 ()

end GraphQLTree
