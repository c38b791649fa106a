import GraphQLTree.Json.Constant
import GraphQLTree.Proofs.Grammar.Typed
import GraphQLTree.Proofs.Json.Binary64

/-!
# Places of nulls

A constant value and the JSON value that it denotes have the same **places**, which are found by the
numbers of items in lists and the names of fields in objects, and at each place stands the JSON value that
the constant value there denotes (`Json.at?_ofConstant`). Where two fields of an object have one name, the
place is in the last of them. A value that holds what values of its kind hold denotes null if it is null or a
number out of range, and no other value does (`Json.ofConstant_eq_null_iff`).
-/

namespace GraphQLTree

/-! ### Places -/

/-- A step into a list or an object. -/
inductive Json.Step where
  | item (n : Nat)
  | member (name : String)

namespace Json

/-- The value that a step leads to. -/
def step? : Json → Step → Option Json
  | array items, .item n => items[n]?
  | object members, .member name => members.lookup name
  | _, _ => none

/-- The value that steps lead to. -/
def at? (json : Json) (steps : List Step) : Option Json :=
  steps.foldlM step? json

end Json

namespace Node

/-- The value of the last field of a name. -/
def member? (node : Node) (name : String) : Option Node :=
  ((node.inSlot .fields).filter fun field => field.nameIn? .name = some name).getLast?.bind
    (inSlot? · .value)

/-- The value that a step leads to in a list or an object. -/
def valueStep? (node : Node) : Json.Step → Option Node
  | .item n => if node.kind = .listValue .constant then (node.inSlot .values)[n]? else none
  | .member name => if node.kind = .objectValue .constant then node.member? name else none

/-- The value that steps lead to. -/
def valueAt? (node : Node) (steps : List Json.Step) : Option Node :=
  steps.foldlM valueStep? node

end Node

/-! ### Members of objects -/

namespace Json

theorem lookup_cons_eq_ite (name : String) (value : Json) (members : List (String × Json))
    (other : String) : ((name, value) :: members).lookup other =
      if other = name then some value else members.lookup other := by
  by_cases h : other = name
  · simp [h]
  · simp [List.lookup_cons, h, beq_false_of_ne h]

theorem lookup_insertMember (name : String) (value : Json) (members : List (String × Json))
    (other : String) : (insertMember name value members).lookup other =
      if other = name then some value else members.lookup other := by
  induction members with
  | nil => exact lookup_cons_eq_ite name value [] other
  | cons member members ih =>
    obtain ⟨name', value'⟩ := member
    rw [insertMember, lookup_cons_eq_ite name' value']
    by_cases hname : name' = name
    · rw [if_pos hname, lookup_cons_eq_ite, hname]
      split <;> rfl
    · rw [if_neg hname, lookup_cons_eq_ite, ih]
      by_cases hother : other = name'
      · rw [if_pos hother, if_neg (hother ▸ hname), if_pos hother]
      · rw [if_neg hother, if_neg hother]

theorem map_fst_insertMember (name : String) (value : Json) (members : List (String × Json)) :
    (insertMember name value members).map Prod.fst =
      if name ∈ members.map Prod.fst then members.map Prod.fst else members.map Prod.fst ++ [name] := by
  induction members with
  | nil => rfl
  | cons member members ih =>
    obtain ⟨name', value'⟩ := member
    rw [insertMember]
    by_cases hname : name' = name
    · simp [hname]
    · rw [if_neg hname, List.map_cons, ih, List.map_cons]
      split <;> simp_all [Ne.symm hname]

/-- The object of some members has each name once. -/
theorem nodup_ofMembers (members : List (String × Json)) :
    ∃ object, ofMembers members = .object object ∧ (object.map Prod.fst).Nodup ∧
      ∀ name, object.lookup name =
        ((members.filter fun member => member.1 = name).getLast?).map Prod.snd := by
  have hfold (object : List (String × Json)) (h : (object.map Prod.fst).Nodup) :
      let result := members.foldl (fun object member => insertMember member.1 member.2 object) object
      (result.map Prod.fst).Nodup ∧ ∀ name, result.lookup name =
        (((members.filter fun member => member.1 = name).getLast?).map Prod.snd).or
          (object.lookup name) := by
    induction members generalizing object with
    | nil => exact ⟨h, fun name => rfl⟩
    | cons member members ih =>
      obtain ⟨name, value⟩ := member
      have hinsert : ((insertMember name value object).map Prod.fst).Nodup := by
        rw [map_fst_insertMember]
        split
        · exact h
        · next hname => exact List.nodup_append_comm.2 (List.nodup_cons.2 ⟨hname, h⟩)
      obtain ⟨hnodup, hlookup⟩ := ih (insertMember name value object) hinsert
      refine ⟨hnodup, fun other => (hlookup other).trans ?_⟩
      rw [lookup_insertMember, List.filter_cons]
      by_cases hother : other = name
      · subst hother
        rw [if_pos rfl, if_pos (decide_eq_true rfl), List.getLast?_cons]
        cases (members.filter fun member => member.1 = other).getLast? <;> rfl
      · rw [if_neg hother, if_neg (by simpa using Ne.symm hother)]
  obtain ⟨hnodup, hlookup⟩ := hfold [] List.nodup_nil
  exact ⟨_, rfl, hnodup, fun name => (hlookup name).trans (Option.or_none ..)⟩

/-! ### Values of lists and objects -/

theorem ofItems_eq (children : List (Slot × Node)) :
    ofItems children = (children.filter fun entry => entry.1 = .values).map fun entry =>
      ofConstant entry.2 := by
  induction children with
  | nil => rw [ofItems, List.filter_nil, List.map_nil]
  | cons entry children ih =>
    obtain ⟨slot, child⟩ := entry
    by_cases hslot : slot = .values
    · subst hslot
      rw [ofItems, ih]
      rfl
    · rw [ofItems, ih, List.filter_cons_of_neg (by simpa using hslot)]
      exact fun _ h => hslot (congrArg Prod.fst h)

theorem ofFields_eq (children : List (Slot × Node)) :
    ofFields children = (children.filter fun entry => entry.1 = .fields).map fun entry =>
      ((entry.2.nameIn? .name).getD "", ofFieldValue entry.2.children) := by
  induction children with
  | nil => rw [ofFields, List.filter_nil, List.map_nil]
  | cons entry children ih =>
    obtain ⟨slot, kind, atom, fields⟩ := entry
    by_cases hslot : slot = .fields
    · subst hslot
      rw [ofFields, ih]
      rfl
    · rw [ofFields, ih, List.filter_cons_of_neg (by simpa using hslot)]
      exact fun _ _ _ h => hslot (congrArg Prod.fst h)

theorem ofFieldValue_eq (children : List (Slot × Node)) :
    ofFieldValue children = (((children.filter fun entry => entry.1 = .value).map Prod.snd).head?.map
      ofConstant).getD null := by
  induction children with
  | nil => rw [ofFieldValue, List.filter_nil, List.map_nil, List.head?_nil]; rfl
  | cons entry children ih =>
    obtain ⟨slot, child⟩ := entry
    by_cases hslot : slot = .value
    · subst hslot
      rw [ofFieldValue]
      rfl
    · rw [ofFieldValue, ih, List.filter_cons_of_neg (by simpa using hslot)]
      exact fun _ h => hslot (congrArg Prod.fst h)

end Json

/-! ### Constant values -/

namespace Literal

variable {token : Token} {atom : Atom}

theorem exists_text {l : Literal} (h : l.read? token = some atom)
    (hl : l ∈ [.int, .float, .enumValue]) : ∃ text, atom = .text text := by
  simp only [List.mem_cons, List.not_mem_nil, or_false] at hl
  rcases hl with rfl | rfl | rfl
  · cases token <;> cases h
    exact ⟨_, rfl⟩
  · cases token <;> cases h
    exact ⟨_, rfl⟩
  · cases token with
    | name text =>
      rw [read?] at h
      split at h
      · cases h
      · exact ⟨_, (Option.some.inj h).symm⟩
    | _ => cases h

theorem exists_string (h : string.read? token = some atom) :
    ∃ value block, atom = .string value block := by
  cases token <;> cases h <;> exact ⟨_, _, rfl⟩

theorem exists_boolean (h : boolean.read? token = some atom) : ∃ value, atom = .boolean value := by
  cases token with
  | name text =>
    rw [read?] at h
    split at h
    · exact ⟨true, (Option.some.inj h).symm⟩
    · exact ⟨false, (Option.some.inj h).symm⟩
    · cases h
  | _ => cases h

end Literal

namespace Node

/-- Whether a node is a constant value as it is read. -/
structure IsConstant (node : Node) : Prop where
  value : (Content.value .constant).accepts node.kind = true
  typed : node.Typed
  read : ∀ n ∈ node.nodes, ∀ l ∈ n.kind.valueLiteral?, ∃ token, l.read? token = some n.atom

/-- Whether a node is a number whose text denotes one that is out of the binary64 range. -/
def OutOfRange (node : Node) : Prop :=
  node.kind = .floatValue ∧ ∃ decimal, Binary64.Decimal.read? node.text.toList = some decimal ∧
    Binary64.bound ≤ decimal.magnitude

theorem nodes_subset {node child : Node} {slot : Slot} (h : child ∈ node.inSlot slot) :
    child.nodes ⊆ node.nodes := by
  obtain ⟨kind, atom, children⟩ := node
  obtain ⟨entry, hentry, rfl⟩ := List.mem_map.1 h
  exact fun n hn => mem_nodes_mk.2 (.inr ⟨entry, (List.mem_filter.1 hentry).1, hn⟩)

theorem Typed.inSlot {node child : Node} (h : node.Typed) {slot : Slot}
    (hchild : child ∈ node.inSlot slot) : child.Typed := by
  obtain ⟨entry, hentry, rfl⟩ := List.mem_map.1 hchild
  exact h.children entry (List.mem_filter.1 hentry).1

namespace IsConstant

variable {node : Node} (h : node.IsConstant)
include h

/-- A child that the schema describes as a constant value is one. -/
theorem of_mem_inSlot (field : Field) {parent : Node} (hsub : parent.nodes ⊆ node.nodes)
    (typed : parent.Typed) (hfield : field ∈ parent.kind.fields)
    (hcontent : field.content = .value .constant) {child : Node}
    (hchild : child ∈ parent.inSlot field.slot) : child.IsConstant where
  value := hcontent ▸ typed.fits.content field hfield child hchild
  typed := typed.inSlot hchild
  read n hn := h.read n (hsub (nodes_subset hchild hn))

/-- The items of a constant list are constant. -/
theorem item (hkind : node.kind = .listValue .constant) {child : Node}
    (hchild : child ∈ node.inSlot .values) : child.IsConstant :=
  h.of_mem_inSlot (.list .values (.value .constant)) (List.Subset.refl _) h.typed
    (by rw [hkind]; decide) rfl hchild

/-- A field of a constant object has a name and a value, which is constant. -/
theorem exists_field (hkind : node.kind = .objectValue .constant) {field : Node}
    (hfield : field ∈ node.inSlot .fields) :
    ∃ name value, field.nameIn? .name = some name ∧ field.inSlot? .value = some value ∧
      value.IsConstant := by
  have typed := h.typed.inSlot hfield
  have hfieldKind : field.kind = .objectField .constant := by
    have haccepts := h.typed.fits.content (.list .fields (.kind (.objectField .constant)))
      (by rw [hkind]; decide) field hfield
    exact (of_decide_eq_true haccepts).symm
  have hone (slot : Slot) (content : Content) (hmem : .one slot content ∈ field.kind.fields) :
      ∃ child, field.inSlot slot = [child] :=
    List.length_eq_one_iff.1 (typed.fits.count (.one slot content) hmem)
  obtain ⟨name, hname⟩ := hone .name (.kind .name) (by rw [hfieldKind]; decide)
  obtain ⟨value, hvalue⟩ := hone .value (.value .constant) (by rw [hfieldKind]; decide)
  refine ⟨name.text, value, ?_, ?_, ?_⟩
  · rw [nameIn?, inSlot?, hname]
    rfl
  · rw [inSlot?, hvalue]
    rfl
  · exact h.of_mem_inSlot (.one .value (.value .constant)) (nodes_subset hfield) typed
      (by rw [hfieldKind]; decide) rfl (hvalue ▸ List.mem_singleton_self _)

end IsConstant

end Node

/-! ### Conversion -/

namespace Json

variable {node : Node}

theorem ofConstant_list (hkind : node.kind = .listValue .constant) :
    ofConstant node = array ((node.inSlot .values).map ofConstant) := by
  obtain ⟨kind, atom, children⟩ := node
  obtain rfl : kind = .listValue .constant := hkind
  rw [ofConstant, ofItems_eq, Node.inSlot, List.map_map]
  rfl

theorem ofFields_inSlot (node : Node) : ofFields node.children =
    (node.inSlot .fields).map fun field =>
      ((field.nameIn? .name).getD "", ofFieldValue field.children) := by
  rw [ofFields_eq, Node.inSlot, List.map_map]
  rfl

theorem ofFieldValue_inSlot (node : Node) :
    ofFieldValue node.children = ((node.inSlot? .value).map ofConstant).getD null :=
  ofFieldValue_eq node.children

/-- A constant object denotes an object whose members are the last fields of each name. -/
theorem ofConstant_object (h : node.IsConstant) (hkind : node.kind = .objectValue .constant) :
    ∃ members, ofConstant node = object members ∧ (members.map Prod.fst).Nodup ∧
      ∀ name, members.lookup name = (node.member? name).map ofConstant := by
  obtain ⟨members, hmembers, hnodup, hlookup⟩ := nodup_ofMembers (ofFields node.children)
  refine ⟨members, ?_, hnodup, fun name => ?_⟩
  · obtain ⟨kind, atom, children⟩ := node
    obtain rfl : kind = .objectValue .constant := hkind
    rw [ofConstant]
    exact hmembers
  · have hnames : ∀ field ∈ node.inSlot .fields,
        decide ((field.nameIn? .name).getD "" = name) = decide (field.nameIn? .name = some name) := by
      intro field hfield
      obtain ⟨name', value, hname, -, -⟩ := h.exists_field hkind hfield
      simp [hname]
    rw [hlookup, ofFields_inSlot, List.filter_map, List.getLast?_map, Option.map_map, Node.member?]
    simp only [Function.comp_def]
    rw [List.filter_congr hnames]
    cases hlast : ((node.inSlot .fields).filter fun field => field.nameIn? .name = some name).getLast? with
    | none => rfl
    | some field =>
      have hfield := (List.mem_filter.1 (List.mem_of_getLast? hlast)).1
      obtain ⟨name', value, -, hvalue, -⟩ := h.exists_field hkind hfield
      simp [ofFieldValue_inSlot, hvalue]

/-- The names of the members that a constant object denotes are the names of its fields. -/
theorem mem_names_iff (h : node.IsConstant) (hkind : node.kind = .objectValue .constant)
    {members : List (String × Json)}
    (hlookup : ∀ name, members.lookup name = (node.member? name).map ofConstant) (name : String) :
    name ∈ members.map Prod.fst ↔ ∃ field ∈ node.inSlot .fields, field.nameIn? .name = some name := by
  have hkeys : name ∈ members.map Prod.fst ↔ (members.lookup name).isSome := by
    rw [List.lookup_isSome_iff, List.mem_map]
    exact exists_congr fun member => and_congr_right fun _ => by rw [beq_iff_eq, eq_comm]
  rw [hkeys, hlookup, Option.isSome_map, Node.member?]
  constructor
  · intro hsome
    obtain ⟨value, hvalue⟩ := Option.isSome_iff_exists.1 hsome
    obtain ⟨field, hlast, -⟩ := Option.bind_eq_some_iff.1 hvalue
    obtain ⟨hfield, hname⟩ := List.mem_filter.1 (List.mem_of_getLast? hlast)
    exact ⟨field, hfield, of_decide_eq_true hname⟩
  · rintro ⟨field, hfield, hname⟩
    have hne : ((node.inSlot .fields).filter fun field => field.nameIn? .name = some name) ≠ [] :=
      List.ne_nil_of_mem (List.mem_filter.2 ⟨hfield, decide_eq_true hname⟩)
    have hlast := List.getLast?_eq_some_getLast hne
    have hmem := (List.mem_filter.1 (List.getLast_mem hne)).1
    obtain ⟨name', value, -, hvalue, -⟩ := h.exists_field hkind hmem
    rw [hlast, Option.bind_some, hvalue]
    rfl

/-- Texts of integers denote numbers or texts. -/
theorem ofIntText_scalar (text : String) :
    ofIntText text ≠ null ∧ ∀ step, (ofIntText text).step? step = none := by
  rw [ofIntText]
  split
  · split <;> exact ⟨nofun, fun _ => rfl⟩
  · exact ⟨nofun, fun _ => rfl⟩

/-- Texts of other numbers denote numbers, texts, or null if they are read as infinite. -/
theorem ofFloatText_scalar (text : String) :
    (ofFloatText text = null ↔ Binary64.read? text.toList = some .infinite) ∧
      ∀ step, (ofFloatText text).step? step = none := by
  rw [ofFloatText]
  split
  · next h => exact ⟨by simp [h], fun _ => rfl⟩
  · next h => exact ⟨by simp [h], fun _ => rfl⟩
  · next h => exact ⟨by simp [h], fun _ => rfl⟩

/-- A constant value that is no list and no object denotes a value without parts, which is null if and only
if the constant value is null or a number out of range. -/
theorem ofConstant_scalar (h : node.IsConstant) (hlist : node.kind ≠ .listValue .constant)
    (hobject : node.kind ≠ .objectValue .constant) :
    (∀ step, (ofConstant node).step? step = none) ∧
      (ofConstant node = null ↔ node.kind = .nullValue ∨ node.OutOfRange) := by
  have hkinds : ∀ kind ∈ Kind.all, (Content.value .constant).accepts kind = true →
      kind ≠ .listValue .constant → kind ≠ .objectValue .constant →
      kind ∈ [.intValue, .floatValue, .stringValue, .booleanValue, .nullValue, .enumValue] := by
    decide
  have hkind := hkinds node.kind node.kind.mem_all h.value hlist hobject
  obtain ⟨kind, atom, children⟩ := node
  have hread := h.read _ (Node.mem_nodes_mk.2 (.inl rfl))
  have hkind : kind ∈ _ := hkind
  simp only [List.mem_cons, List.not_mem_nil, or_false] at hkind
  rcases hkind with rfl | rfl | rfl | rfl | rfl | rfl
  · obtain ⟨token, hread⟩ := hread _ rfl
    obtain ⟨text, rfl⟩ := Literal.exists_text hread (by decide)
    obtain ⟨hnull, hstep⟩ := ofIntText_scalar text
    rw [ofConstant]
    exact ⟨hstep, iff_of_false hnull (by simp [Node.kind, Node.OutOfRange])⟩
  · obtain ⟨token, hread⟩ := hread _ rfl
    obtain ⟨text, rfl⟩ := Literal.exists_text hread (by decide)
    obtain ⟨hnull, hstep⟩ := ofFloatText_scalar text
    rw [ofConstant, hnull, Binary64.read?_eq_infinite_iff]
    exact ⟨hstep, by simp [Node.kind, Node.OutOfRange, Node.text, Node.atom]⟩
  · obtain ⟨token, hread⟩ := hread _ rfl
    obtain ⟨value, block, rfl⟩ := Literal.exists_string hread
    rw [ofConstant]
    exact ⟨fun _ => rfl, by simp [Node.kind, Node.OutOfRange]⟩
  · obtain ⟨token, hread⟩ := hread _ rfl
    obtain ⟨value, rfl⟩ := Literal.exists_boolean hread
    rw [ofConstant]
    exact ⟨fun _ => rfl, by simp [Node.kind, Node.OutOfRange]⟩
  · have hnull : ofConstant (.mk .nullValue atom children) = null := by
      cases atom <;> simp only [ofConstant]
    rw [hnull]
    exact ⟨fun _ => rfl, by simp [Node.kind]⟩
  · obtain ⟨token, hread⟩ := hread _ rfl
    obtain ⟨text, rfl⟩ := Literal.exists_text hread (by decide)
    rw [ofConstant]
    exact ⟨fun _ => rfl, by simp [Node.kind, Node.OutOfRange]⟩

/-- A constant value denotes null if and only if it is null or a number out of range. -/
theorem ofConstant_eq_null_iff (h : node.IsConstant) :
    ofConstant node = null ↔ node.kind = .nullValue ∨ node.OutOfRange := by
  by_cases hlist : node.kind = .listValue .constant
  · rw [ofConstant_list hlist]
    exact iff_of_false nofun (by simp [hlist, Node.OutOfRange])
  by_cases hobject : node.kind = .objectValue .constant
  · obtain ⟨members, hmembers, -⟩ := ofConstant_object h hobject
    rw [hmembers]
    exact iff_of_false nofun (by simp [hobject, Node.OutOfRange])
  exact (ofConstant_scalar h hlist hobject).2

/-- A step leads to the value that is denoted by what it leads to. -/
theorem step?_ofConstant (h : node.IsConstant) (step : Step) :
    (ofConstant node).step? step = (node.valueStep? step).map ofConstant := by
  by_cases hlist : node.kind = .listValue .constant
  · rw [ofConstant_list hlist]
    cases step with
    | item n => simp [step?, Node.valueStep?, hlist]
    | member name => simp [step?, Node.valueStep?, hlist]
  by_cases hobject : node.kind = .objectValue .constant
  · obtain ⟨members, hmembers, -, hlookup⟩ := ofConstant_object h hobject
    rw [hmembers]
    cases step with
    | item n => simp [step?, Node.valueStep?, hobject]
    | member name => simp [step?, Node.valueStep?, hobject, hlookup]
  rw [(ofConstant_scalar h hlist hobject).1]
  cases step <;> simp [Node.valueStep?, hlist, hobject]

end Json

namespace Node.IsConstant

variable {node : Node} (h : node.IsConstant)
include h

/-- A step in a constant value leads to a constant value. -/
theorem of_valueStep {step : Json.Step} {value : Node} (hstep : node.valueStep? step = some value) :
    value.IsConstant := by
  cases step with
  | item n =>
    obtain ⟨hkind, hitem⟩ := Option.ite_none_right_eq_some.1 hstep
    exact h.item hkind (List.mem_of_getElem? hitem)
  | member name =>
    obtain ⟨hkind, hmember⟩ := Option.ite_none_right_eq_some.1 hstep
    obtain ⟨field, hlast, hvalue⟩ := Option.bind_eq_some_iff.1 hmember
    have hfield := (List.mem_filter.1 (List.mem_of_getLast? hlast)).1
    obtain ⟨name', value', -, hvalue', hconstant⟩ := h.exists_field hkind hfield
    rw [hvalue'] at hvalue
    exact Option.some.inj hvalue ▸ hconstant

theorem of_valueAt {steps : List Json.Step} {value : Node} (hsteps : node.valueAt? steps = some value) :
    value.IsConstant := by
  induction steps generalizing node with
  | nil => exact Option.some.inj hsteps ▸ h
  | cons step steps ih =>
    obtain ⟨next, hstep, hsteps⟩ := Option.bind_eq_some_iff.1 hsteps
    exact ih (h.of_valueStep hstep) hsteps

/-- A constant value and what it denotes have the same places, and the value at a place denotes what
stands there. -/
theorem at?_ofConstant (steps : List Json.Step) :
    (Json.ofConstant node).at? steps = (node.valueAt? steps).map Json.ofConstant := by
  induction steps generalizing node with
  | nil => rfl
  | cons step steps ih =>
    have hsplit : (Json.ofConstant node).at? (step :: steps) =
        ((Json.ofConstant node).step? step).bind (·.at? steps) := rfl
    have hsplit' : node.valueAt? (step :: steps) = (node.valueStep? step).bind (·.valueAt? steps) := rfl
    rw [hsplit, hsplit', Json.step?_ofConstant h]
    cases hstep : node.valueStep? step with
    | none => rfl
    | some next => exact ih (h.of_valueStep hstep)

end Node.IsConstant

end GraphQLTree
