import Mathlib.Algebra.Ring.Nat
import GraphQLTree.Proofs.Traversal.Listing
import GraphQLTree.Proofs.Traversal.Runs

/-!
# Every node is visited once

A **recorded** walk keeps, besides the state of its hooks, a **record** of each call: what the hook
was called with and what came of it. Its records are the listing of the tree if all calls succeed;
otherwise they are the start of the listing up to the call that failed, whose error is that of the
walk (`Node.walk_listing`). A node is left with the outputs of its children, in the order of its
places.

The proof follows a computation from the records before it: what it adds to them, and what then holds
of all records (`RecordedAfter`).
-/

namespace GraphQLTree

/-- A call of a hook that a walk has made, with its result. -/
inductive Record (ε α : Type) where
  | enter (node : Node) (visit : Visit) (result : Except ε Unit)
  | leave (node : Node) (outputs : Children α) (visit : Visit) (result : Except ε α)

namespace Record

variable {ε α : Type}

/-- What the hook was called for. -/
def event : Record ε α → Event
  | enter node visit _ => .enter node visit
  | leave node _ visit _ => .leave node visit

/-- The error that the call failed with, if it failed. -/
def error? : Record ε α → Option ε
  | enter _ _ (.error e) => some e
  | leave _ _ _ (.error e) => some e
  | _ => none

/-- Whether an entry of a node's outputs is the output that the child at a place was left with. -/
def Yields (records : List (Record ε α)) (visit : Visit) (node : Node) (place : Path × Node)
    (entry : Slot × α) : Prop :=
  place.1.head? = some (.slot entry.1) ∧
    ∃ outputs, leave place.2 outputs (visit.below node place.1) (.ok entry.2) ∈ records

/-- Whether a call was made with the outputs that the node's children were left with, in the order of
the node's places, if it was made for leaving the node. -/
def HasOutputs (records : List (Record ε α)) : Record ε α → Prop
  | enter _ _ _ => True
  | leave node outputs visit _ =>
    List.Forall₂ (Yields records visit node) node.places outputs.entries

theorem Yields.mono {records records' : List (Record ε α)} (h : records ⊆ records') {visit : Visit}
    {node : Node} {place : Path × Node} {entry : Slot × α} :
    Yields records visit node place entry → Yields records' visit node place entry :=
  fun ⟨hslot, outputs, hmem⟩ => ⟨hslot, outputs, h hmem⟩

theorem HasOutputs.mono {records records' : List (Record ε α)} (h : records ⊆ records')
    {record : Record ε α} (hrecord : record.HasOutputs records) : record.HasOutputs records' := by
  cases record with
  | enter node visit result => trivial
  | leave node outputs visit result => exact List.Forall₂.imp (fun _ _ => Yields.mono h) hrecord

end Record

variable {ε σ α β γ : Type}

/-- Hooks that keep a record of each call. -/
def Walker.recorded (walker : Walker (ExceptT ε (StateM σ)) α) :
    Walker (ExceptT ε (StateM (σ × List (Record ε α)))) α where
  enter node visit := fun (state, records) =>
    let (result, state) := runFrom (walker.enter node visit) state
    (result, (state, records ++ [.enter node visit result]))
  leave node outputs visit := fun (state, records) =>
    let (result, state) := runFrom (walker.leave node outputs visit) state
    (result, (state, records ++ [.leave node outputs visit result]))

/-! ### What computations add to records -/

/-- Whether records are those of the events listed, and none of them failed; then a condition holds of
all records and the result. Or they are those of the first of the events, and the last of them failed
with the error given. -/
def Record.Account (events : List Event) (records : List (Record ε α)) (holds : β → Prop) :
    Except ε β → Prop
  | .ok b => records.map event = events ∧ (∀ record ∈ records, record.error? = none) ∧ holds b
  | .error e => records.map event <+: events ∧ ∃ earlier last, records = earlier ++ [last] ∧
      (∀ record ∈ earlier, record.error? = none) ∧ last.error? = some e

/-- Whether a computation with recorded hooks, after some records, does what it does with the hooks
themselves, and adds records of events. -/
def RecordedAfter (before : List (Record ε α)) (events : List Event)
    (holds : List (Record ε α) → β → Prop) (x : ExceptT ε (StateM σ) β)
    (x' : ExceptT ε (StateM (σ × List (Record ε α))) β) : Prop :=
  ∀ state log, ∃ records,
    runFrom x' (state, log) = ((runFrom x state).1, (runFrom x state).2, log ++ records) ∧
    Record.Account events records (holds (before ++ records)) (runFrom x state).1 ∧
    ∀ record ∈ records, record.HasOutputs (before ++ records)

namespace RecordedAfter

variable {before : List (Record ε α)} {events events' : List Event}
  {holds : List (Record ε α) → β → Prop} {holds' : List (Record ε α) → γ → Prop}
  {x : ExceptT ε (StateM σ) β} {x' : ExceptT ε (StateM (σ × List (Record ε α))) β}

theorem pure {b : β} (h : holds before b) :
    RecordedAfter (σ := σ) before [] holds (Pure.pure b) (Pure.pure b) :=
  fun state log => ⟨[], by simp, by simpa [Record.Account] using h, by simp⟩

/-- What holds of the records and the result may be weakened, where the records before are among all
records. -/
theorem imp {holds' : List (Record ε α) → β → Prop} (h : RecordedAfter before events holds x x')
    (himp : ∀ records b, before ⊆ records → holds records b → holds' records b) :
    RecordedAfter before events holds' x x' := by
  intro state log
  obtain ⟨records, hrun, haccount, hleaves⟩ := h state log
  refine ⟨records, hrun, ?_, hleaves⟩
  cases hresult : (runFrom x state).1 with
  | error e => rwa [hresult] at haccount
  | ok b =>
    rw [hresult] at haccount
    obtain ⟨hevents, hnone, hholds⟩ := haccount
    exact ⟨hevents, hnone, himp _ b (List.subset_append_left before records) hholds⟩

/-- Computations one after the other add records one after the other. -/
theorem bind {f : β → ExceptT ε (StateM σ) γ} {f' : β → ExceptT ε (StateM (σ × List (Record ε α))) γ}
    (h : RecordedAfter before events holds x x')
    (hnext : ∀ records b, before ⊆ records → holds records b →
      RecordedAfter records events' holds' (f b) (f' b)) :
    RecordedAfter before (events ++ events') holds' (x >>= f) (x' >>= f') := by
  intro state log
  obtain ⟨records, hrun', haccount, hleaves⟩ := h state log
  rcases hrun : runFrom x state with ⟨e | b, state'⟩
  · rw [hrun] at hrun' haccount
    obtain ⟨hevents, hlast⟩ := haccount
    rw [runFrom_bind_error hrun, runFrom_bind_error hrun']
    exact ⟨records, rfl, ⟨hevents.trans (List.prefix_append events events'), hlast⟩, hleaves⟩
  · rw [hrun] at hrun' haccount
    obtain ⟨hevents, hnone, hholds⟩ := haccount
    rw [runFrom_bind_ok hrun, runFrom_bind_ok hrun']
    obtain ⟨records', hrun'', haccount', hleaves'⟩ :=
      hnext (before ++ records) b (List.subset_append_left before records) hholds state'
        (log ++ records)
    refine ⟨records ++ records', by rw [hrun'', List.append_assoc], ?_, ?_⟩
    · rw [List.append_assoc] at haccount'
      cases hresult : (runFrom (f b) state').1 with
      | ok c =>
        rw [hresult] at haccount'
        obtain ⟨hevents', hnone', hholds'⟩ := haccount'
        exact ⟨by rw [List.map_append, hevents, hevents'],
          List.forall_mem_append.2 ⟨hnone, hnone'⟩, hholds'⟩
      | error e =>
        rw [hresult] at haccount'
        obtain ⟨hevents', earlier, last, rfl, hnone', hlast⟩ := haccount'
        refine ⟨?_, records ++ earlier, last, by simp, List.forall_mem_append.2 ⟨hnone, hnone'⟩,
          hlast⟩
        rw [List.map_append, hevents]
        exact (List.prefix_append_right_inj events).2 hevents'
    · rw [← List.append_assoc]
      exact List.forall_mem_append.2
        ⟨fun record hrecord => (hleaves record hrecord).mono (by simp), hleaves'⟩

end RecordedAfter

/-! ### Walks -/

namespace Walker

variable {walker : Walker (ExceptT ε (StateM σ)) α}

theorem recordedAfter_enter (before : List (Record ε α)) (node : Node) (visit : Visit) :
    RecordedAfter before [.enter node visit] (fun _ _ => True) (walker.enter node visit)
      (walker.recorded.enter node visit) := by
  intro state log
  refine ⟨[.enter node visit (runFrom (walker.enter node visit) state).1], rfl, ?_, by
    simp [Record.HasOutputs]⟩
  cases (runFrom (walker.enter node visit) state).1 with
  | ok _ => exact ⟨rfl, by simp [Record.error?], trivial⟩
  | error e => exact ⟨List.prefix_rfl, [], _, rfl, by simp, rfl⟩

/-- A node may be left with outputs that its children were left with before. -/
theorem recordedAfter_leave {before : List (Record ε α)} {node : Node} {visit : Visit}
    {outputs : Children α}
    (h : ∀ result, (Record.leave node outputs visit result).HasOutputs before) :
    RecordedAfter before [.leave node visit]
      (fun records output => records.getLast? = some (.leave node outputs visit (.ok output)))
      (walker.leave node outputs visit) (walker.recorded.leave node outputs visit) := by
  intro state log
  refine ⟨[.leave node outputs visit (runFrom (walker.leave node outputs visit) state).1], rfl, ?_,
    by simpa using (h _).mono (List.subset_append_left before _)⟩
  cases (runFrom (walker.leave node outputs visit) state).1 with
  | ok _ => exact ⟨rfl, by simp [Record.error?], by simp⟩
  | error e => exact ⟨List.prefix_rfl, [], _, rfl, by simp, rfl⟩

end Walker

namespace Node

/-- Whether the last of some records is that of a node being left with an output. -/
def LastLeft (node : Node) (visit : Visit) (records : List (Record ε α)) (output : α) : Prop :=
  ∃ outputs, records.getLast? = some (.leave node outputs visit (.ok output))

theorem recordedAfter_walkChildren (walker : Walker (ExceptT ε (StateM σ)) α) (node : Node)
    (visit : Visit) {children : List (Slot × Node)}
    (h : ∀ entry ∈ children, ∀ below before,
      RecordedAfter before (listing below entry.2) (entry.2.LastLeft below)
        (walk walker below entry.2) (walk walker.recorded below entry.2))
    (earlier : List Slot) (before : List (Record ε α)) :
    RecordedAfter before
      ((stepsTo node.kind earlier children).flatMap fun place =>
        listing (visit.below node place.1) place.2)
      (fun records outputs => List.Forall₂ (Record.Yields records visit node)
        (stepsTo node.kind earlier children) outputs)
      (walkChildren walker (visit.child node) earlier children)
      (walkChildren walker.recorded (visit.child node) earlier children) := by
  induction children generalizing earlier before with
  | nil => exact RecordedAfter.pure .nil
  | cons entry rest ih =>
    obtain ⟨slot, child⟩ := entry
    have hchild := h (slot, child) List.mem_cons_self
      (visit.below node (node.kind.stepTo earlier slot)) before
    rw [stepsTo, List.flatMap_cons, walkChildren, walkChildren]
    refine hchild.bind fun records output _ hleft => ?_
    have hrest := ih (fun entry hentry => h entry (List.mem_cons_of_mem _ hentry))
      (earlier ++ [slot]) records
    rw [← List.append_nil ((stepsTo node.kind (earlier ++ [slot]) rest).flatMap _)]
    refine hrest.bind fun all outputs hsub hyields => ?_
    obtain ⟨given, hgiven⟩ := hleft
    refine RecordedAfter.pure (.cons ⟨?_, given, hsub (List.mem_of_getLast? hgiven)⟩ hyields)
    simp only [Kind.stepTo]
    split <;> rfl

/-- A recorded walk of a typed node makes the calls that are listed. -/
theorem recordedAfter_walk (walker : Walker (ExceptT ε (StateM σ)) α) {node : Node}
    (typed : node.Typed) (visit : Visit) (before : List (Record ε α)) :
    RecordedAfter before (listing visit node) (node.LastLeft visit) (walk walker visit node)
      (walk walker.recorded visit node) := by
  induction typed generalizing visit before with
  | @intro node fits children ih =>
    have hwalk := recordedAfter_walkChildren walker node visit
      (fun entry hentry below before => ih entry hentry below before) []
    rw [fits.stepsTo_children] at hwalk
    obtain ⟨kind, atom, entries⟩ := node
    rw [listing_eq, List.cons_append, ← List.singleton_append, walk, walk]
    refine (walker.recordedAfter_enter before _ visit).bind fun records _ _ _ => ?_
    refine (hwalk records).bind fun all outputs _ hyields => ?_
    exact (walker.recordedAfter_leave fun _ => hyields).imp fun _ _ _ hlast => ⟨_, hlast⟩

/-- Every node is visited once, at its place. A walk of a typed node calls its hooks for the events of
the node's listing, in that order, and leaves each node with the outputs of its own children. If a hook
fails, no hook is called after it and its error is that of the walk. Each listed event is about the
node that its path leads to and about that node's parent; no path is entered or left twice, and every
path that leads to a node is both. -/
theorem walk_listing (walker : Walker (ExceptT ε (StateM σ)) α) {root : Node} (typed : root.Typed)
    (state : σ) :
    (∃ records : List (Record ε α),
      runFrom (root.walk walker.recorded .root) (state, []) =
        ((runFrom (root.walk walker .root) state).1, (runFrom (root.walk walker .root) state).2,
          records) ∧
      (∀ output, (runFrom (root.walk walker .root) state).1 = .ok output →
        records.map Record.event = listing .root root ∧
        (∀ record ∈ records, record.error? = none) ∧ root.LastLeft .root records output) ∧
      (∀ e, (runFrom (root.walk walker .root) state).1 = .error e →
        records.map Record.event <+: listing .root root ∧
        ∃ earlier last, records = earlier ++ [last] ∧
          (∀ record ∈ earlier, record.error? = none) ∧ last.error? = some e) ∧
      ∀ record ∈ records, record.HasOutputs records) ∧
    (∀ event ∈ listing .root root, Located root event) ∧
    (∀ entering, (Event.paths entering (listing .root root)).Nodup) ∧
    ∀ path node, root.at? path = some node → ∃ parent,
      .enter node ⟨path, parent⟩ ∈ listing .root root ∧
      .leave node ⟨path, parent⟩ ∈ listing .root root := by
  refine ⟨?_, fun event hevent => typed.located_of_mem_listing hevent,
    fun entering => typed.nodup_paths_listing entering .root, fun path node hat => ?_⟩
  · obtain ⟨records, hrun, haccount, houtputs⟩ := recordedAfter_walk walker typed .root [] state []
    refine ⟨records, hrun, fun output hok => ?_, fun e herror => ?_, houtputs⟩
    · rwa [hok] at haccount
    · rwa [herror] at haccount
  · obtain ⟨⟨found, parent⟩, hfound, henter, hleave⟩ := typed.mem_listing_of_at? hat .root
    obtain rfl : found = path := hfound
    exact ⟨parent, henter, hleave⟩

end Node

/-- A walk that counts nodes. -/
def Walker.counting : Walker (ExceptT String (StateM Unit)) Nat where
  enter _ _ := pure ()
  leave _ children _ := pure (1 + children.outputs.sum)

theorem Node.walk_listing_counting :
    let named : Node := .mk .namedType .none [(.name, .ofName "A")]
    named.Typed ∧ ∃ records,
      runFrom (named.walk Walker.counting.recorded .root) ((), []) = (.ok 2, (), records) ∧
      records.map Record.event = listing .root named := by
  have typed : (Node.mk .namedType .none [(.name, .ofName "A")]).Typed := by decide
  refine ⟨typed, ?_⟩
  obtain ⟨⟨records, hrun, hok, -, -⟩, -⟩ := Node.walk_listing Walker.counting typed ()
  exact ⟨records, hrun, (hok 2 rfl).1⟩

end GraphQLTree
