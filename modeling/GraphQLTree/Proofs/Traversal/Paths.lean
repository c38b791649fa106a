import GraphQLTree.Proofs.Traversal.Rebuild
import GraphQLTree.Proofs.Traversal.Visits
import GraphQLTree.Proofs.Tree.Path

/-!
# Paths of visited nodes

No two nodes of one traversal are entered at the same path, and no two are left at the same path. This
holds of walks over a node or over the nodes of a list, and of transformations, whose hooks may put other
nodes in the place of those that are entered: the children of a replacement are visited below the path of
the node that it stands for. Since paths are told apart by what they are written as, the written paths of
the nodes are different, too. The main result says this together with what is known of written paths
(`Path.ofText_written`).

Paths are **apart** if none of them lies behind another one. What is visited behind paths that are apart
is visited at different paths (`Event.Apart.append`).
-/

namespace GraphQLTree

namespace Event

/-- The paths at which nodes are entered, or those at which nodes are left, as they are written. -/
def displays (entering : Bool) (events : List Event) : List String :=
  (paths entering events).map Path.text

/-- Whether the nodes of events are visited behind some paths, no two of them at one path. -/
structure Apart (behind : List Path) (events : List Event) : Prop where
  behind : ∀ event ∈ events, ∃ path ∈ behind, path <+: event.visit.path
  nodup : ∀ entering, (paths entering events).Nodup

theorem mem_paths {entering : Bool} {events : List Event} {path : Path}
    (h : path ∈ paths entering events) : ∃ event ∈ events, event.visit.path = path := by
  obtain ⟨event, hevent, hpath⟩ := List.mem_map.1 h
  exact ⟨event, (List.mem_filter.1 hevent).1, hpath⟩

namespace Apart

theorem nil (behind : List Path) : Apart behind [] :=
  ⟨nofun, fun _ => List.nodup_nil⟩

/-- Nodes that are visited behind a path are visited behind every path in front of it. -/
theorem mono {behind behind' : List Path} {events : List Event} (h : Apart behind events)
    (hbehind : ∀ path ∈ behind, ∃ path' ∈ behind', path' <+: path) : Apart behind' events := by
  refine ⟨fun event hevent => ?_, h.nodup⟩
  obtain ⟨path, hpath, hstart⟩ := h.behind event hevent
  obtain ⟨path', hpath', hstart'⟩ := hbehind path hpath
  exact ⟨path', hpath', hstart'.trans hstart⟩

/-- Nodes that are visited behind paths which are apart are visited at different paths. -/
theorem append {behind behind' : List Path} {events events' : List Event}
    (h : Apart behind events) (h' : Apart behind' events')
    (hapart : ∀ p ∈ behind, ∀ q ∈ behind', ∀ a b, p ++ a ≠ q ++ b) :
    Apart (behind ++ behind') (events ++ events') := by
  refine ⟨List.forall_mem_append.2 ⟨fun event hevent => ?_, fun event hevent => ?_⟩,
    fun entering => ?_⟩
  · obtain ⟨path, hpath, hstart⟩ := h.behind event hevent
    exact ⟨path, List.mem_append_left _ hpath, hstart⟩
  · obtain ⟨path, hpath, hstart⟩ := h'.behind event hevent
    exact ⟨path, List.mem_append_right _ hpath, hstart⟩
  · rw [paths_append]
    refine List.nodup_append'.2 ⟨h.nodup entering, h'.nodup entering, fun path hp hq => ?_⟩
    obtain ⟨event, hevent, hpath⟩ := mem_paths hp
    obtain ⟨event', hevent', hpath'⟩ := mem_paths hq
    obtain ⟨p, hp, a, ha⟩ := h.behind event hevent
    obtain ⟨q, hq, b, hb⟩ := h'.behind event' hevent'
    exact hapart p hp q hq a b (by rw [ha, hb, hpath, hpath'])

end Apart

/-- Whether events are about nodes behind the path of a visit but not at it, no two of them at one path, but
for a node that is left there at last. -/
def Inside (visit : Visit) (events : List Event) : Prop :=
  ∃ inner last, events = inner ++ last ∧ Apart [visit.path] inner ∧
    (∀ event ∈ inner, event.visit.path ≠ visit.path) ∧
    (last = [] ∨ ∃ node, last = [leave node visit])

/-- Nodes that are visited behind paths which lead on from a visit are inside it. -/
theorem Apart.inside {visit : Visit} {places : List (Path × Node)} {events : List Event}
    (h : Apart (places.map fun place => visit.path ++ place.1) events)
    (hplaces : ∀ place ∈ places, place.1 ≠ []) {last : List Event}
    (hlast : last = [] ∨ ∃ node, last = [leave node visit]) : Inside visit (events ++ last) := by
  refine ⟨events, last, rfl, h.mono fun path hpath => ?_, fun event hevent hself => ?_, hlast⟩
  · obtain ⟨place, -, rfl⟩ := List.mem_map.1 hpath
    exact ⟨_, List.mem_singleton_self _, List.prefix_append _ _⟩
  · obtain ⟨path, hpath, rest, hrest⟩ := h.behind event hevent
    obtain ⟨place, hplace, rfl⟩ := List.mem_map.1 hpath
    rw [hself, List.append_assoc, List.append_right_eq_self, List.append_eq_nil_iff] at hrest
    exact hplaces place hplace hrest.1

/-- What is entered at a visit is entered and left there once, whatever is visited inside it. -/
theorem Inside.enter {visit : Visit} {events : List Event} (h : Inside visit events) (node : Node) :
    Apart [visit.path] (Event.enter node visit :: events) := by
  obtain ⟨inner, last, rfl, hinner, hbelow, hlast⟩ := h
  have hself (entering : Bool) : visit.path ∉ paths entering inner := by
    intro hmem
    obtain ⟨event, hevent, hpath⟩ := mem_paths hmem
    exact hbelow event hevent hpath
  have hfirst : Apart [visit.path] (Event.enter node visit :: inner) := by
    refine ⟨List.forall_mem_cons.2 ⟨⟨_, List.mem_singleton_self _, List.prefix_rfl⟩,
      hinner.behind⟩, ?_⟩
    rintro (_ | _)
    · exact hinner.nodup false
    · exact List.nodup_cons.2 ⟨hself true, hinner.nodup true⟩
  rcases hlast with rfl | ⟨left, rfl⟩
  · rwa [List.append_nil]
  · rw [← List.cons_append]
    refine ⟨List.forall_mem_append.2 ⟨hfirst.behind, List.forall_mem_singleton.2
      ⟨_, List.mem_singleton_self _, List.prefix_rfl⟩⟩, ?_⟩
    rintro (_ | _)
    · rw [paths_append, paths_false_leave]
      exact List.nodup_append_comm.2 (List.nodup_cons.2 ⟨hself false, hinner.nodup false⟩)
    · rw [paths_append, paths_true_leave, List.append_nil]
      exact hfirst.nodup true

end Event

/-! ### Walks -/

section Walks

variable {ε σ α β : Type}

/-- A recorded computation that adds records of events visits different paths if the events do. -/
theorem RecordedAfter.nodup_displays {events : List Event} {holds : List (Record ε α) → β → Prop}
    {x : ExceptT ε (StateM σ) β} {x' : ExceptT ε (StateM (σ × List (Record ε α))) β}
    (h : RecordedAfter [] events holds x x')
    (hnodup : ∀ entering, (Event.paths entering events).Nodup) (state : σ) (entering : Bool) :
    (Event.displays entering ((runFrom x' (state, [])).2.2.map Record.event)).Nodup := by
  obtain ⟨records, hrun, haccount, -⟩ := h state []
  have hstart : records.map Record.event <+: events := by
    cases hresult : (runFrom x state).1 with
    | ok b =>
      rw [hresult] at haccount
      exact haccount.1 ▸ List.prefix_rfl
    | error e =>
      rw [hresult] at haccount
      exact haccount.1
  rw [hrun]
  exact (((hstart.sublist.filter _).map _).nodup (hnodup entering)).map Path.text_injective

namespace Node

/-- The events of walks over nodes one after the other, starting from the given number. -/
def listingFrom : Nat → List Node → List Event
  | _, [] => []
  | n, node :: nodes => listing ⟨[.index n], none⟩ node ++ listingFrom (n + 1) nodes

theorem recordedAfter_walkFrom (walker : Walker (ExceptT ε (StateM σ)) α) {nodes : List Node}
    (typed : ∀ node ∈ nodes, node.Typed) (n : Nat) (before : List (Record ε α)) :
    RecordedAfter before (listingFrom n nodes) (fun _ _ => True) (walkFrom walker n nodes)
      (walkFrom walker.recorded n nodes) := by
  induction nodes generalizing n before with
  | nil => exact RecordedAfter.pure trivial
  | cons node nodes ih =>
    obtain ⟨hnode, hnodes⟩ := List.forall_mem_cons.1 typed
    refine (recordedAfter_walk walker hnode _ before).bind fun records output _ _ => ?_
    rw [← List.append_nil (listingFrom (n + 1) nodes)]
    exact (ih hnodes (n + 1) records).bind fun _ _ _ _ => RecordedAfter.pure trivial

/-- The nodes of a list are walked behind their numbers. -/
theorem apart_listingFrom {nodes : List Node} (typed : ∀ node ∈ nodes, node.Typed) (n : Nat) :
    Event.Apart ((List.range' n nodes.length).map fun m => [.index m]) (listingFrom n nodes) := by
  induction nodes generalizing n with
  | nil => exact .nil _
  | cons node nodes ih =>
    obtain ⟨hnode, hnodes⟩ := List.forall_mem_cons.1 typed
    have hfirst : Event.Apart [[.index n]] (listing ⟨[.index n], none⟩ node) := by
      refine ⟨fun event hevent => ?_, fun entering => hnode.nodup_paths_listing entering _⟩
      obtain ⟨path, hpath, -⟩ := hnode.of_mem_listing hevent
      exact ⟨_, List.mem_singleton_self _, path, hpath.symm⟩
    refine hfirst.append (ih hnodes (n + 1)) fun p hp q hq a b heq => ?_
    obtain rfl := List.mem_singleton.1 hp
    obtain ⟨m, hm, rfl⟩ := List.mem_map.1 hq
    have hlt := (List.mem_range'_1.1 hm).1
    injection (List.cons.inj heq).1 with hnm
    omega

end Node

end Walks

/-! ### Transformations -/

section Transformations

variable {σ α β : Type}

open Node (Call)

/-- What a call does with a node. -/
def Node.Call.event (call : Call) : Event :=
  if call.entering then .enter call.node call.visit else .leave call.node call.visit

/-- Whether a computation with logged hooks adds calls whose events satisfy a condition, whatever comes of
it, and its result, if there is one, satisfies another one. -/
def Logs (logs : List Event → Prop) (holds : α → Prop) (x : Transforming (σ × List Call) α) : Prop :=
  ∀ state log, ∃ calls, (runFrom x (state, log)).2.2 = log ++ calls ∧ logs (calls.map Call.event) ∧
    ∀ a, (runFrom x (state, log)).1 = .ok a → holds a

namespace Logs

variable {logs logs' : List Event → Prop} {holds : α → Prop} {holds' : β → Prop}
  {x : Transforming (σ × List Call) α}

theorem pure {a : α} (h : holds a) : Logs (σ := σ) (· = []) holds (Pure.pure a) :=
  fun _ _ => ⟨[], by simp, rfl, fun _ ha => Except.ok.inj ha ▸ h⟩

theorem throw (diagnostic : Diagnostic) :
    Logs (σ := σ) (· = []) holds (MonadExcept.throw diagnostic) :=
  fun _ _ => ⟨[], by simp, rfl, nofun⟩

theorem imp (h : Logs logs holds x) (himp : ∀ events, logs events → logs' events) :
    Logs logs' holds x := by
  intro state log
  obtain ⟨calls, hrun, hlogs, hholds⟩ := h state log
  exact ⟨calls, hrun, himp _ hlogs, hholds⟩

/-- Computations one after the other add calls one after the other; the second one adds none if the first
one fails. -/
theorem bind {f : α → Transforming (σ × List Call) β} (h : Logs logs holds x)
    (hnext : ∀ a, holds a → Logs logs' holds' (f a)) :
    Logs (fun events => ∃ first rest, events = first ++ rest ∧ logs first ∧
      (rest = [] ∨ logs' rest)) holds' (x >>= f) := by
  intro state log
  obtain ⟨calls, hrun, hlogs, hholds⟩ := h state log
  rcases hx : runFrom x (state, log) with ⟨e | a, state', log'⟩
  · rw [hx] at hrun
    rw [runFrom_bind_error hx]
    exact ⟨calls, hrun, ⟨_, [], by simp, hlogs, .inl rfl⟩, nofun⟩
  · rw [hx] at hrun hholds
    rw [runFrom_bind_ok hx]
    obtain ⟨calls', hrun', hlogs', hholds'⟩ := hnext a (hholds a rfl) state' log'
    refine ⟨calls ++ calls', ?_, ⟨_, _, List.map_append, hlogs, .inr hlogs'⟩, hholds'⟩
    rw [hrun', show log' = log ++ calls from hrun, List.append_assoc]

end Logs

namespace Hooks

variable {hooks : Hooks σ}

theorem logs_enter (hhooks : hooks.KeepsTyped) {node : Node} (typed : node.Typed) (visit : Visit) :
    Logs (· = [.enter node visit]) (fun replacement => (replacement.getD node).Typed)
      (hooks.logged.enter node visit) := by
  intro state log
  refine ⟨[⟨true, node, visit⟩], rfl, rfl, fun replacement h => ?_⟩
  cases replacement with
  | none => exact typed
  | some replacement => exact hhooks.logged node visit typed (state, log) replacement h

theorem logs_leave (node : Node) (visit : Visit) :
    Logs (· = [.leave node visit]) (fun _ => True) (hooks.logged.leave node visit) :=
  fun _ _ => ⟨[⟨false, node, visit⟩], rfl, rfl, fun _ _ => trivial⟩

end Hooks

namespace Node

/-- Children are transformed behind the steps to them. -/
theorem logs_transformChildren
    {transform : Visit → Node → Transforming (σ × List Call) Transformed}
    {children : List (Slot × Node)}
    (h : ∀ entry ∈ children, ∀ visit,
      Logs (Event.Apart [visit.path]) (fun _ => True) (transform visit entry.2))
    (visit : Visit) (node : Node) (earlier : List Slot)
    (hapart : (stepsTo node.kind earlier children).Pairwise fun a b => ∀ p q, a.1 ++ p ≠ b.1 ++ q) :
    Logs (Event.Apart ((stepsTo node.kind earlier children).map fun place => visit.path ++ place.1))
      (fun _ => True) (transformChildren transform (visit.child node) earlier children) := by
  induction children generalizing earlier with
  | nil => exact (Logs.pure trivial).imp fun _ he => he ▸ .nil _
  | cons entry rest ih =>
    obtain ⟨slot, child⟩ := entry
    obtain ⟨hchild, hrest⟩ := List.forall_mem_cons.1 h
    obtain ⟨hfirst, hpairwise⟩ := List.pairwise_cons.1 hapart
    refine ((hchild (visit.child node earlier slot)).bind fun output _ =>
      (ih hrest (earlier ++ [slot]) hpairwise).bind fun outputs _ => Logs.pure trivial).imp ?_
    rintro events ⟨first, others, rfl, hevents, hothers⟩
    have hothers : Event.Apart ((stepsTo node.kind (earlier ++ [slot]) rest).map
        fun place => visit.path ++ place.1) others := by
      rcases hothers with rfl | ⟨others, none, rfl, hothers, rfl | rfl⟩
      · exact .nil _
      · rwa [List.append_nil]
      · rwa [List.append_nil]
    refine hevents.append hothers fun p hp q hq a b heq => ?_
    obtain rfl := List.mem_singleton.1 hp
    obtain ⟨place, hplace, rfl⟩ := List.mem_map.1 hq
    refine hfirst place hplace a b ((List.append_right_inj visit.path).1 ?_)
    simpa [Visit.child] using heq

/-- A node that has been rebuilt is left once; what can't be rebuilt is not left. -/
theorem logs_leave_of_rebuilt {hooks : Hooks σ} {x : Transforming (σ × List Call) Node}
    (hrebuild : Logs (· = []) (fun _ => True) x) (visit : Visit) (changed : Bool) :
    Logs (fun events => events = [] ∨ ∃ left, events = [.leave left visit]) (fun _ => True) (do
      let rebuilt ← x
      let final ← hooks.logged.leave rebuilt visit
      pure (⟨final.getD rebuilt, changed || final.isSome⟩ : Transformed)) := by
  have hleave (rebuilt : Node) :
      Logs (fun events => ∃ left, events = [.leave left visit]) (fun _ => True) (do
        let final ← hooks.logged.leave rebuilt visit
        pure (⟨final.getD rebuilt, changed || final.isSome⟩ : Transformed)) := by
    refine ((hooks.logs_leave rebuilt visit).bind fun final _ => Logs.pure trivial).imp ?_
    rintro events ⟨first, rest, rfl, rfl, rfl | rfl⟩ <;> exact ⟨rebuilt, rfl⟩
  refine (hrebuild.bind fun rebuilt _ => hleave rebuilt).imp ?_
  rintro events ⟨first, rest, rfl, rfl, hrest⟩
  exact hrest

/-- A node is transformed behind its path, whatever it is replaced by. -/
theorem logs_transformWithin {hooks : Hooks σ} (hhooks : hooks.KeepsTyped) (depth : Nat)
    (visit : Visit) {node : Node} (typed : node.Typed) :
    Logs (Event.Apart [visit.path]) (fun _ => True)
      (transformWithin hooks.logged depth visit node) := by
  induction depth generalizing visit node with
  | zero => exact (Logs.throw _).imp fun _ he => he ▸ .nil _
  | succ depth ih =>
    unfold transformWithin
    refine ((hooks.logs_enter hhooks typed visit).bind fun replacement hentered =>
      (?inside : Logs (Event.Inside visit) (fun _ => True) _)).imp ?enter
    case enter =>
      rintro events ⟨first, rest, rfl, rfl, hrest⟩
      rcases hrest with rfl | hrest
      · exact Event.Inside.enter ⟨[], [], rfl, .nil _, List.forall_mem_nil _, .inl rfl⟩ node
      · exact hrest.enter node
    case inside =>
      have hchildren := logs_transformChildren
        (fun entry hentry visit => ih visit (hentered.children entry hentry)) visit
        (replacement.getD node) [] (hentered.fits.stepsTo_children ▸ hentered.fits.pairwise_places)
      rw [hentered.fits.stepsTo_children] at hchildren
      refine (hchildren.bind fun outputs _ => (?left :
        Logs (fun events => events = [] ∨ ∃ left, events = [.leave left visit]) (fun _ => True) _)).imp ?_
      case left =>
        cases outputs.any fun entry => entry.2.changed with
        | false => exact logs_leave_of_rebuilt (Logs.pure trivial) visit _
        | true =>
          cases rebuild (replacement.getD node).kind (replacement.getD node).atom
            (outputs.map fun entry => (entry.1, entry.2.node)) with
          | ok rebuilt => exact logs_leave_of_rebuilt (Logs.pure trivial) visit _
          | error problem => exact logs_leave_of_rebuilt (Logs.throw _) visit _
      rintro events ⟨inner, last, rfl, hinner, hlast⟩
      exact hinner.inside (fun place hplace => step_ne_nil hplace) (or_self_left.1 hlast)

/-- A transformation visits different paths, whatever its hooks put in the place of nodes. -/
theorem nodup_displays_transform {hooks : Hooks σ} (hhooks : hooks.KeepsTyped) (depth : Nat)
    (content : Content) {node : Node} (typed : node.Typed) (state : σ) (entering : Bool) :
    (Event.displays entering ((runFrom (transform hooks.logged depth content node)
      (state, [])).2.2.map Call.event)).Nodup := by
  have hchecked (transformed : Transformed) : Logs (σ := σ) (· = []) (fun _ => True)
      (if !transformed.changed || content.accepts transformed.node.kind then Pure.pure transformed
        else MonadExcept.throw (.placeless (.irreplaceable node.kind transformed.node.kind))) := by
    split
    · exact Logs.pure trivial
    · exact Logs.throw _
  obtain ⟨calls, hrun, ⟨first, rest, heq, hfirst, hrest⟩, -⟩ :=
    ((logs_transformWithin hhooks depth .root typed).bind fun transformed _ =>
      hchecked transformed) state []
  rw [or_self_iff.1 hrest, List.append_nil] at heq
  have hlog : (runFrom (transform hooks.logged depth content node) (state, [])).2.2 = calls := hrun
  rw [hlog, heq]
  exact (hfirst.nodup entering).map Path.text_injective

end Node

end Transformations

/-! ### Written paths of visited nodes -/

/-- Written paths are read again. A path whose indices have 64 bits is read from what it is written as.
A text is read as a path if and only if it is empty or each of its pieces between dots is the name of a
slot or spells an index below `2 ^ 64`; what it is read as is written as a text that is read as the same
path, and so written as itself. No two nodes that a walk enters, or leaves, have paths that are written
alike, whether a node is walked or the nodes of a list, and no two that a transformation enters or
leaves. -/
theorem Path.ofText_written :
    (∀ path : Path, (∀ n, .index n ∈ path → n < 2 ^ 64) → ofText path.text = .ok path) ∧
    (∀ text : String, (∃ path, ofText text = .ok path) ↔
      text = "" ∨ ∀ piece ∈ text.toList.splitOn '.',
        (∃ slot : Slot, piece = slot.text.toList) ∨ ∃ n < 2 ^ 64, Segment.SpellsIndex piece n) ∧
    (∀ text path, ofText text = .ok path →
      ofText path.text = .ok path ∧ (ofText path.text).map Path.text = .ok path.text) ∧
    (∀ {ε σ α : Type} (walker : Walker (ExceptT ε (StateM σ)) α) (state : σ) (entering : Bool),
      (∀ root : Node, root.Typed → (Event.displays entering ((runFrom
        (root.walk walker.recorded .root) (state, [])).2.2.map Record.event)).Nodup) ∧
      ∀ nodes : List Node, (∀ node ∈ nodes, node.Typed) → (Event.displays entering ((runFrom
        (Node.walkList walker.recorded nodes) (state, [])).2.2.map Record.event)).Nodup) ∧
    ∀ {σ : Type} (hooks : Hooks σ), hooks.KeepsTyped → ∀ (state : σ) (entering : Bool) (depth : Nat)
      (content : Content) (node : Node), node.Typed → (Event.displays entering ((runFrom
        (node.transform hooks.logged depth content) (state, [])).2.2.map Node.Call.event)).Nodup := by
  refine ⟨fun path h => ofText_text h, fun text => ?_, fun text path h => ?_,
    fun walker state entering => ⟨fun root typed => ?_, fun nodes typed => ?_⟩,
    fun hooks hhooks state entering depth content node typed =>
      Node.nodup_displays_transform hhooks depth content typed state entering⟩
  · refine exists_ofText_iff.trans (or_congr_right (forall₂_congr fun piece _ => ?_))
    constructor
    · rintro ⟨segment, slot | ⟨hspells, hlimit⟩⟩
      · exact .inl ⟨slot, rfl⟩
      · exact .inr ⟨_, hlimit, hspells⟩
    · rintro (⟨slot, rfl⟩ | ⟨n, hlimit, hspells⟩)
      · exact ⟨_, .slot slot⟩
      · exact ⟨_, .index hspells hlimit⟩
  · have hagain : ofText path.text = .ok path := ofText_text fun n hn => lt_of_mem_ofText h hn
    exact ⟨hagain, by rw [hagain]; rfl⟩
  · exact (Node.recordedAfter_walk walker typed .root []).nodup_displays
      (fun entering => typed.nodup_paths_listing entering .root) state entering
  · exact (Node.recordedAfter_walkFrom walker typed 0 []).nodup_displays
      (Node.apart_listingFrom typed 0).nodup state entering

theorem Path.ofText_written_fields :
    let path : Path := [.slot .definitions, .index 0, .slot .selectionSet, .slot .selections, .index 7]
    let named : Node := .mk .namedType .none [(.name, .ofName "A")]
    ((∀ n, .index n ∈ path → n < 2 ^ 64) ∧ named.Typed ∧ (Hooks.renaming "B").KeepsTyped) ∧
      ofText "definitions.0.selectionSet.selections.7" = .ok path ∧
      ofText "definitions.+00.selectionSet.selections.007" = .ok path ∧
      ofText "+18446744073709551615" = .ok [.index (2 ^ 64 - 1)] ∧
      (¬ ∃ read, ofText "name..type" = .ok read) ∧
      (Event.displays true ((runFrom (named.transform (Hooks.renaming "B").logged 2 .type)
        ((), [])).2.2.map Node.Call.event)).Nodup := by
  have hsmall : ∀ n, Segment.index n ∈ ([.slot .definitions, .index 0, .slot .selectionSet,
      .slot .selections, .index 7] : Path) → n < 2 ^ 64 := by simp
  have typed : (Node.mk .namedType .none [(.name, .ofName "A")]).Typed := by decide
  have hhooks : (Hooks.renaming "B").KeepsTyped := fun _ _ _ _ _ h => nomatch Except.ok.inj h
  obtain ⟨hwritten, hread, -, -, htransform⟩ := Path.ofText_written
  refine ⟨⟨hsmall, typed, hhooks⟩, hwritten _ hsmall, by decide, by decide, fun hok => ?_,
    htransform _ hhooks () true 2 .type _ typed⟩
  have hempty := ((hread "name..type").1 hok).resolve_left (by decide) [] (by decide)
  obtain ⟨slot, hslot⟩ | ⟨n, -, hspells⟩ := hempty
  · exact Segment.toList_text_ne_nil (.slot slot) hslot.symm
  · obtain hnumber | ⟨digits, hplus, -⟩ := hspells
    · exact (Segment.spellsNumber_iff.1 hnumber).1 rfl
    · cases hplus

end GraphQLTree
