import GraphQLTree.Proofs.Tree.Typed
import GraphQLTree.Traversal.Walk
import Mathlib.Data.List.Nodup

/-!
# Listings

The **places** of a node are its children, field by field as the schema declares the fields, each
with the **step** that leads to it: the field's slot, and the number of the child if the field is a
list. The **listing** of a tree says in which order its nodes are to be entered and left: a node is
entered, then its places are listed in their order, then it is left.

Every event of a listing is about the node that its path leads to (`Node.located_of_mem_listing`), no
two enter nodes at one path (`Node.nodup_paths_listing`), and every path that leads anywhere is listed
(`Node.mem_listing_of_at?`).
-/

namespace GraphQLTree

/-- The segments that lead to the child with a number in a field. -/
def Field.step (field : Field) (n : Nat) : Path :=
  if field.arity = .list then [.slot field.slot, .index n] else [.slot field.slot]

/-- The slot of a kind's field is a list if the field is one. -/
theorem Kind.isListSlot_of_mem {kind : Kind} {field : Field} (h : field ∈ kind.fields) :
    kind.isListSlot field.slot = decide (field.arity = .list) := by
  have hkinds : Kind.all.all (fun kind => kind.fields.all fun field =>
      kind.isListSlot field.slot = decide (field.arity = .list)) = true := by
    decide
  exact of_decide_eq_true (List.all_eq_true.1 (List.all_eq_true.1 hkinds kind kind.mem_all) field h)

/-- The visit of a node's child behind a step. -/
def Visit.below (visit : Visit) (node : Node) (step : Path) : Visit :=
  ⟨visit.path ++ step, some node⟩

/-- What a walk does with a node. -/
inductive Event where
  | enter (node : Node) (visit : Visit)
  | leave (node : Node) (visit : Visit)

namespace Event

/-- The node that is entered or left. -/
def node : Event → Node
  | enter node _ => node
  | leave node _ => node

/-- Where the node is. -/
def visit : Event → Visit
  | enter _ visit => visit
  | leave _ visit => visit

/-- Whether the node is entered. -/
def isEnter : Event → Bool
  | enter _ _ => true
  | leave _ _ => false

/-- The paths at which nodes are entered, or those at which nodes are left. -/
def paths (entering : Bool) (events : List Event) : List Path :=
  (events.filter (·.isEnter = entering)).map (·.visit.path)

theorem paths_append (entering : Bool) (a b : List Event) :
    paths entering (a ++ b) = paths entering a ++ paths entering b := by
  simp [paths]

theorem paths_true_enter (node : Node) (visit : Visit) (events : List Event) :
    paths true (enter node visit :: events) = visit.path :: paths true events :=
  rfl

theorem paths_false_enter (node : Node) (visit : Visit) (events : List Event) :
    paths false (enter node visit :: events) = paths false events :=
  rfl

theorem paths_true_leave (node : Node) (visit : Visit) : paths true [leave node visit] = [] :=
  rfl

theorem paths_false_leave (node : Node) (visit : Visit) :
    paths false [leave node visit] = [visit.path] :=
  rfl

theorem paths_flatMap {α : Type} (entering : Bool) (as : List α) (list : α → List Event) :
    paths entering (as.flatMap list) = as.flatMap fun a => paths entering (list a) := by
  induction as with
  | nil => rfl
  | cons a as ih => rw [List.flatMap_cons, paths_append, ih, List.flatMap_cons]

end Event

namespace Node

/-- The children of a node in a field, each with the step that leads to it. -/
def placesIn (node : Node) (field : Field) : List (Path × Node) :=
  (node.inSlot field.slot).zipIdx.map fun (child, n) => (field.step n, child)

/-- The children of a node field by field, each with the step that leads to it. -/
def places (node : Node) : List (Path × Node) :=
  node.kind.fields.flatMap node.placesIn

theorem mem_placesIn {node : Node} {field : Field} {place : Path × Node} :
    place ∈ node.placesIn field ↔
      ∃ n, (node.inSlot field.slot)[n]? = some place.2 ∧ place.1 = field.step n := by
  constructor
  · rintro h
    obtain ⟨⟨child, n⟩, hmem, rfl⟩ := List.mem_map.1 h
    exact ⟨n, List.mem_zipIdx_iff_getElem?.1 hmem, rfl⟩
  · rintro ⟨n, hn, hstep⟩
    exact List.mem_map.2 ⟨(place.2, n), List.mem_zipIdx_iff_getElem?.2 hn, by simp [← hstep]⟩

theorem exists_mem_children {node : Node} {place : Path × Node} (h : place ∈ node.places) :
    ∃ slot, (slot, place.2) ∈ node.children := by
  obtain ⟨field, -, h⟩ := List.mem_flatMap.1 h
  obtain ⟨n, hn, -⟩ := mem_placesIn.1 h
  obtain ⟨entry, hentry, heq⟩ := List.mem_map.1 (List.mem_of_getElem? hn)
  exact ⟨entry.1, heq ▸ (List.mem_filter.1 hentry).1⟩

theorem sizeOf_lt_of_mem_places {node : Node} {place : Path × Node} (h : place ∈ node.places) :
    sizeOf place.2 < sizeOf node := by
  obtain ⟨kind, atom, children⟩ := node
  obtain ⟨slot, hmem⟩ := exists_mem_children h
  have hlist : sizeOf (slot, place.2) < sizeOf children := List.sizeOf_lt_of_mem hmem
  rw [Prod.mk.sizeOf_spec] at hlist
  rw [Node.mk.sizeOf_spec]
  omega

/-- The events of a walk over a node and everything below it. -/
def listing (visit : Visit) (node : Node) : List Event :=
  .enter node visit ::
    node.places.attach.flatMap (fun ⟨place, _⟩ => listing (visit.below node place.1) place.2) ++
    [.leave node visit]
termination_by sizeOf node
decreasing_by exact sizeOf_lt_of_mem_places ‹_›

theorem listing_eq (visit : Visit) (node : Node) :
    listing visit node =
      .enter node visit ::
        node.places.flatMap (fun place => listing (visit.below node place.1) place.2) ++
        [.leave node visit] := by
  have hattach (list : Path × Node → List Event) :
      node.places.attach.flatMap (fun place => list place.1) = node.places.flatMap list :=
    calc node.places.attach.flatMap (fun place => list place.1)
        = (node.places.attach.map Subtype.val).flatMap list :=
          (List.flatMap_map ..).symm
      _ = node.places.flatMap list := by rw [List.attach_map_subtype_val]
  rw [listing]
  exact congrArg (fun events => Event.enter node visit :: events ++ [.leave node visit])
    (hattach fun place => listing (visit.below node place.1) place.2)

/-! ### Where places are -/

theorem at?_index {node : Node} {slot : Slot} (h : node.kind.isListSlot slot = true) (n : Nat)
    (path : Path) :
    node.at? (.slot slot :: .index n :: path) = (node.inSlot slot)[n]?.bind (·.at? path) := by
  rw [at?.eq_def]
  simp only [h, ↓reduceIte]
  rfl

theorem at?_slot {node : Node} {slot : Slot} (h : node.kind.isListSlot slot = false)
    (path : Path) : node.at? (.slot slot :: path) = (node.inSlot? slot).bind (·.at? path) := by
  rw [at?.eq_def]
  simp only [h, Bool.false_eq_true, ↓reduceIte]
  rfl

/-- A field that isn't a list has no second child. -/
theorem Fits.length_inSlot_le {node : Node} (h : node.Fits) {field : Field}
    (hfield : field ∈ node.kind.fields) (hlist : field.arity ≠ .list) :
    (node.inSlot field.slot).length ≤ 1 := by
  have hcount := h.count field hfield
  cases harity : field.arity with
  | list => exact absurd harity hlist
  | one => exact Nat.le_of_eq (by simpa [harity, Arity.Allows] using hcount)
  | optional => simpa [harity, Arity.Allows] using hcount

/-- The path to a place leads to the child there. -/
theorem Fits.at?_place {node : Node} (h : node.Fits) {place : Path × Node}
    (hplace : place ∈ node.places) (path : Path) :
    node.at? (place.1 ++ path) = place.2.at? path := by
  obtain ⟨field, hfield, hmem⟩ := List.mem_flatMap.1 hplace
  obtain ⟨n, hn, hstep⟩ := mem_placesIn.1 hmem
  have hslot := Kind.isListSlot_of_mem hfield
  by_cases hlist : field.arity = .list
  · simp only [hlist, decide_true] at hslot
    simp [hstep, Field.step, hlist, at?_index hslot, hn]
  · have hlength := h.length_inSlot_le hfield hlist
    have hlt := (List.getElem?_eq_some_iff.1 hn).1
    obtain rfl : n = 0 := by omega
    have hhead : node.inSlot? field.slot = some place.2 := by
      rw [inSlot?, List.head?_eq_getElem?, hn]
    simp only [hlist, decide_false] at hslot
    simp [hstep, Field.step, hlist, at?_slot hslot, hhead]

/-- A path that leads somewhere leads through a place. -/
theorem Fits.exists_place {node descendant : Node} (fits : node.Fits) {segment : Segment}
    {path : Path} (h : node.at? (segment :: path) = some descendant) :
    ∃ place ∈ node.places, ∃ rest, segment :: path = place.1 ++ rest ∧
      place.2.at? rest = some descendant := by
  cases segment with
  | index n => cases h
  | slot slot =>
    cases hslot : node.kind.isListSlot slot with
    | true =>
      obtain ⟨field, hfind, hlist⟩ : ∃ field, node.kind.fieldAt? slot = some field ∧
          field.arity = .list := by
        simpa [Kind.isListSlot, Option.any_eq_true] using hslot
      have hfield : field ∈ node.kind.fields := List.mem_of_find?_eq_some hfind
      obtain rfl : field.slot = slot := by simpa using List.find?_some hfind
      cases path with
      | nil => simp [at?, hslot] at h
      | cons segment path =>
        cases segment with
        | slot slot => simp [at?, hslot] at h
        | index n =>
          rw [at?_index hslot, Option.bind_eq_some_iff] at h
          obtain ⟨child, hchild, hrest⟩ := h
          have hplace : (field.step n, child) ∈ node.placesIn field :=
            mem_placesIn.2 ⟨n, hchild, rfl⟩
          exact ⟨_, List.mem_flatMap.2 ⟨field, hfield, hplace⟩, path,
            by simp [Field.step, hlist], hrest⟩
    | false =>
      rw [at?_slot hslot, Option.bind_eq_some_iff] at h
      obtain ⟨child, hchild, hrest⟩ := h
      rw [inSlot?, List.head?_eq_getElem?] at hchild
      obtain ⟨entry, hentry, -⟩ := List.mem_map.1 (List.mem_of_getElem? hchild)
      obtain ⟨field, hfield, hname, -⟩ := fits.exists_field (List.mem_filter.1 hentry).1
      have hentry' : entry.1 = slot := of_decide_eq_true (List.mem_filter.1 hentry).2
      obtain rfl : field.slot = slot := hname.trans hentry'
      have hlist : field.arity ≠ .list := by
        simpa [hslot] using Kind.isListSlot_of_mem hfield
      have hplace : (field.step 0, child) ∈ node.placesIn field :=
        mem_placesIn.2 ⟨0, hchild, rfl⟩
      exact ⟨_, List.mem_flatMap.2 ⟨field, hfield, hplace⟩, path,
        by simp [Field.step, hlist], hrest⟩

/-- Neither of two places lies behind the other. -/
theorem Fits.pairwise_places {node : Node} (fits : node.Fits) :
    node.places.Pairwise fun a b => ∀ p q, a.1 ++ p ≠ b.1 ++ q := by
  refine List.pairwise_flatMap.2 ⟨fun field hfield => ?_, ?_⟩
  · refine List.pairwise_iff_getElem.2 fun i j hi hj hij p q heq => ?_
    by_cases hlist : field.arity = .list
    · simp [placesIn, Field.step, hlist] at heq
      omega
    · have := fits.length_inSlot_le hfield hlist
      simp only [placesIn, List.length_map, List.length_zipIdx] at hi hj
      omega
  · refine (List.pairwise_map.1 node.kind.nodup_slots).imp fun {field field'} hne a ha b hb p q heq => ?_
    obtain ⟨n, -, ha⟩ := mem_placesIn.1 ha
    obtain ⟨m, -, hb⟩ := mem_placesIn.1 hb
    rw [ha, hb] at heq
    refine hne ?_
    unfold Field.step at heq
    split at heq <;> split at heq <;> simp_all

/-! ### The order of children -/

/-- Children with the steps that a walk takes to them, when those in the `earlier` slots have been
walked before. -/
def stepsTo (kind : Kind) : List Slot → List (Slot × Node) → List (Path × Node)
  | _, [] => []
  | earlier, (slot, child) :: rest =>
    (kind.stepTo earlier slot, child) :: stepsTo kind (earlier ++ [slot]) rest

theorem stepsTo_append (kind : Kind) (earlier : List Slot) (a b : List (Slot × Node)) :
    stepsTo kind earlier (a ++ b) =
      stepsTo kind earlier a ++ stepsTo kind (earlier ++ a.map Prod.fst) b := by
  induction a generalizing earlier with
  | nil => simp [stepsTo]
  | cons entry a ih => simp [stepsTo, ih]

/-- The children of one field are numbered from the number of those before them. -/
theorem stepsTo_of_field {kind : Kind} {field : Field} (hfield : field ∈ kind.fields)
    {entries : List (Slot × Node)} (h : ∀ entry ∈ entries, entry.1 = field.slot)
    (earlier : List Slot) :
    stepsTo kind earlier entries =
      ((entries.map Prod.snd).zipIdx (earlier.count field.slot)).map fun (child, n) =>
        (field.step n, child) := by
  induction entries generalizing earlier with
  | nil => rfl
  | cons entry entries ih =>
    obtain ⟨slot, child⟩ := entry
    obtain rfl : slot = field.slot := h _ List.mem_cons_self
    have hcount : (earlier ++ [field.slot]).count field.slot = earlier.count field.slot + 1 := by
      simp
    rw [stepsTo, ih (fun entry hentry => h entry (List.mem_cons_of_mem _ hentry)), hcount]
    simp [Kind.stepTo, Kind.isListSlot_of_mem hfield, Field.step]

/-- A walk takes to the children of a node the steps to the node's places. -/
theorem Fits.stepsTo_children {node : Node} (fits : node.Fits) :
    stepsTo node.kind [] node.children = node.places := by
  have hfields (fields : List Field) (hsub : fields ⊆ node.kind.fields)
      (hnodup : (fields.map Field.slot).Nodup) (earlier : List Slot)
      (hearlier : ∀ field ∈ fields, field.slot ∉ earlier) :
      stepsTo node.kind earlier (fields.flatMap fun field =>
          node.children.filter fun entry => entry.1 = field.slot) =
        fields.flatMap node.placesIn := by
    induction fields generalizing earlier with
    | nil => rfl
    | cons field fields ih =>
      rw [List.map_cons, List.nodup_cons] at hnodup
      rw [List.flatMap_cons, List.flatMap_cons, stepsTo_append,
        stepsTo_of_field (hsub List.mem_cons_self) (by simp),
        List.count_eq_zero.2 (hearlier field List.mem_cons_self)]
      refine congrArg (_ ++ ·) (ih (fun f hf => hsub (List.mem_cons_of_mem _ hf)) hnodup.2 _ ?_)
      intro other hother hmem
      rcases List.mem_append.1 hmem with hmem | hmem
      · exact hearlier other (List.mem_cons_of_mem _ hother) hmem
      · obtain ⟨entry, hentry, heq⟩ := List.mem_map.1 hmem
        have hslot : entry.1 = field.slot := of_decide_eq_true (List.mem_filter.1 hentry).2
        exact hnodup.1 (hslot ▸ heq ▸ List.mem_map_of_mem hother)
  have harranged : stepsTo node.kind [] node.children =
      stepsTo node.kind [] (arrange node.kind node.children) :=
    congrArg (stepsTo node.kind []) fits.arranged
  rw [harranged]
  exact hfields node.kind.fields (fun _ h => h) node.kind.nodup_slots [] (by simp)

/-! ### What is listed -/

/-- Whether the node of an event is where it is said to be below a root: its path leads to it, and
unless it is the root itself, its parent is the node that it is a child of. -/
structure Located (root : Node) (event : Event) : Prop where
  node : root.at? event.visit.path = some event.node
  parent : event.visit = .root ∨ ∃ path parent step, event.visit = ⟨path ++ step, some parent⟩ ∧
    root.at? path = some parent ∧ (step, event.node) ∈ parent.places

/-- What is listed below a visit is behind the visit's path, where its path leads from the node. -/
theorem Typed.of_mem_listing {node : Node} (typed : node.Typed) {visit : Visit} {event : Event}
    (h : event ∈ listing visit node) :
    ∃ path, event.visit.path = visit.path ++ path ∧ node.at? path = some event.node ∧
      (path = [] ∧ event.visit = visit ∨ ∃ before step parent, path = before ++ step ∧
        event.visit.parent = some parent ∧ node.at? before = some parent ∧
        (step, event.node) ∈ parent.places) := by
  induction typed generalizing visit with
  | @intro node fits children ih =>
    rw [listing_eq, List.cons_append, List.mem_cons, List.mem_append, List.mem_singleton] at h
    rcases h with rfl | h | rfl
    · exact ⟨[], by simp [Event.visit], rfl, .inl ⟨rfl, rfl⟩⟩
    · obtain ⟨⟨step, child⟩, hplace, hevent⟩ := List.mem_flatMap.1 h
      obtain ⟨slot, hchild⟩ := exists_mem_children hplace
      have hat := fits.at?_place hplace
      obtain ⟨path, hpath, hnode, hparent⟩ := ih _ hchild hevent
      refine ⟨step ++ path, ?_, (hat path).trans hnode, .inr ?_⟩
      · rw [hpath, Visit.below, List.append_assoc]
      · rcases hparent with ⟨rfl, hvisit⟩ | ⟨before, last, parent, rfl, hparent, hbefore, hmem⟩
        · have hself : event.node = child := (Option.some.inj hnode).symm
          exact ⟨[], step, node, by simp, by rw [hvisit, Visit.below], rfl, hself ▸ hplace⟩
        · exact ⟨step ++ before, last, parent, by simp, hparent, (hat before).trans hbefore, hmem⟩
    · exact ⟨[], by simp [Event.visit], rfl, .inl ⟨rfl, rfl⟩⟩

/-- Every listed event is about the node that its path leads to. -/
theorem Typed.located_of_mem_listing {root : Node} (typed : root.Typed) {event : Event}
    (h : event ∈ listing .root root) : Located root event := by
  obtain ⟨path, hpath, hnode, hparent⟩ := typed.of_mem_listing h
  obtain rfl : event.visit.path = path := hpath.trans (List.nil_append path)
  refine ⟨hnode, hparent.imp And.right ?_⟩
  rintro ⟨before, step, parent, hpath, hparent, hbefore, hmem⟩
  exact ⟨before, parent, step, by rw [← hpath, ← hparent], hbefore, hmem⟩

/-- Every node that a path leads to is entered and left there. -/
theorem Typed.mem_listing_of_at? {node descendant : Node} (typed : node.Typed) {path : Path}
    (h : node.at? path = some descendant) (visit : Visit) :
    ∃ place : Visit, place.path = visit.path ++ path ∧
      .enter descendant place ∈ listing visit node ∧
      .leave descendant place ∈ listing visit node := by
  induction typed generalizing visit path with
  | @intro node fits children ih =>
    rw [listing_eq]
    cases path with
    | nil =>
      obtain rfl : node = descendant := Option.some.inj h
      exact ⟨visit, by simp, by simp, by simp⟩
    | cons segment path =>
      obtain ⟨place, hplace, rest, hpath, hrest⟩ := fits.exists_place h
      obtain ⟨slot, hchild⟩ := exists_mem_children hplace
      obtain ⟨found, hfound, henter, hleave⟩ := ih _ hchild hrest (visit.below node place.1)
      have hmem {event : Event} (h : event ∈ listing (visit.below node place.1) place.2) :
          event ∈ .enter node visit :: (node.places.flatMap fun place =>
            listing (visit.below node place.1) place.2) ++ [.leave node visit] :=
        List.mem_append_left _ (List.mem_cons_of_mem _ (List.mem_flatMap.2 ⟨place, hplace, h⟩))
      exact ⟨found, by rw [hfound, hpath, Visit.below, List.append_assoc], hmem henter, hmem hleave⟩

theorem Typed.exists_of_mem_paths {node : Node} (typed : node.Typed) {entering : Bool} {visit : Visit}
    {path : Path} (h : path ∈ Event.paths entering (listing visit node)) :
    ∃ rest, path = visit.path ++ rest := by
  obtain ⟨event, hevent, rfl⟩ := List.mem_map.1 h
  obtain ⟨rest, hrest, -⟩ := typed.of_mem_listing (List.mem_filter.1 hevent).1
  exact ⟨rest, hrest⟩

theorem step_ne_nil {node : Node} {place : Path × Node} (h : place ∈ node.places) :
    place.1 ≠ [] := by
  obtain ⟨field, -, h⟩ := List.mem_flatMap.1 h
  obtain ⟨n, -, hstep⟩ := mem_placesIn.1 h
  rw [hstep, Field.step]
  split <;> simp

/-- No two nodes are entered at one path, and no two are left at one path. -/
theorem Typed.nodup_paths_listing {node : Node} (typed : node.Typed) (entering : Bool)
    (visit : Visit) : (Event.paths entering (listing visit node)).Nodup := by
  induction typed generalizing visit with
  | @intro node fits children ih =>
    have htyped {place : Path × Node} (h : place ∈ node.places) : place.2.Typed :=
      have ⟨_, hchild⟩ := exists_mem_children h
      children _ hchild
    have hbelow : (Event.paths entering (node.places.flatMap fun place =>
        listing (visit.below node place.1) place.2)).Nodup := by
      rw [Event.paths_flatMap, List.nodup_flatMap]
      refine ⟨fun place hplace => ?_, fits.pairwise_places.imp_of_mem ?_⟩
      · obtain ⟨slot, hchild⟩ := exists_mem_children hplace
        exact ih _ hchild (visit.below node place.1)
      · intro a b ha hb hapart path hpa hpb
        obtain ⟨p, hp⟩ := (htyped ha).exists_of_mem_paths hpa
        obtain ⟨q, hq⟩ := (htyped hb).exists_of_mem_paths hpb
        refine hapart p q ?_
        simpa [Visit.below] using hp.symm.trans hq
    have hself : visit.path ∉ Event.paths entering (node.places.flatMap fun place =>
        listing (visit.below node place.1) place.2) := by
      rw [Event.paths_flatMap, List.mem_flatMap]
      rintro ⟨place, hplace, hmem⟩
      obtain ⟨rest, hrest⟩ := (htyped hplace).exists_of_mem_paths hmem
      have hnil : place.1 ++ rest = [] := by simpa [Visit.below] using hrest
      exact step_ne_nil hplace (List.append_eq_nil_iff.1 hnil).1
    rw [listing_eq, Event.paths_append]
    cases entering with
    | true =>
      rw [Event.paths_true_enter, Event.paths_true_leave, List.append_nil]
      exact List.nodup_cons.2 ⟨hself, hbelow⟩
    | false =>
      rw [Event.paths_false_enter, Event.paths_false_leave]
      exact List.nodup_append_comm.2 (List.nodup_cons.2 ⟨hself, hbelow⟩)

end Node

end GraphQLTree
