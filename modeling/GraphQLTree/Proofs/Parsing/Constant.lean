import GraphQLTree.Proofs.Json.Constant
import GraphQLTree.Proofs.Parsing.Typed

/-!
# JSON values of parsed constant values

The JSON value that a parsed constant value denotes has the same places, and it is null at those of null
values and of numbers that are out of the binary64 range (`Json.ofConstant_parse`). So numbers out of range
are not kept as texts, as integers are that don't fit 64 bits (`Json.ofConstant_parse_infinite`).
-/

namespace GraphQLTree

/-- What is parsed as a constant value is one. -/
theorem Target.isConstant_of_parse {text : String} {c : Node}
    (h : (goal (.value .constant)).parse text = .ok c) : c.IsConstant := by
  have htarget : goal (.value .constant) ∈ parsable := by decide
  obtain ⟨rest, hread⟩ := parse_goal_eq_ok.1 h
  obtain ⟨child, rfl, -, hderives⟩ := Goal.read_sound _ _ _ _ _ (isReadable_of_parsable htarget) hread
  exact ⟨hderives.accepts, hderives.typed, hderives.exists_token⟩

namespace Json

/-- JSON conversion keeps null where it is, but for numbers out of range. What a parsed constant value
denotes has the places of the constant value, and at each of them is what is denoted there. There is null at
a place if and only if the constant value there is null or a number whose magnitude is out of range. A list
denotes an array of what its items denote, in their order, and an object denotes an object that has each of
its names once, with what is denoted by the value of the last field of that name. A number, a string, a
boolean or an enum value denotes null only if it is a number out of range. -/
theorem ofConstant_parse {text : String} {c : Node}
    (h : (Target.goal (.value .constant)).parse text = .ok c) :
    (∀ steps, (ofConstant c).at? steps = (c.valueAt? steps).map ofConstant) ∧
    (∀ steps, (ofConstant c).at? steps = some null ↔
      ∃ v, c.valueAt? steps = some v ∧ (v.kind = .nullValue ∨ v.OutOfRange)) ∧
    ∀ steps v, c.valueAt? steps = some v →
      (v.kind = .nullValue → ofConstant v = null) ∧
      (v.kind = .listValue .constant →
        ofConstant v = array ((v.inSlot .values).map ofConstant)) ∧
      (v.kind = .objectValue .constant → ∃ members, ofConstant v = object members ∧
        (members.map Prod.fst).Nodup ∧
        (∀ name, name ∈ members.map Prod.fst ↔
          ∃ field ∈ v.inSlot .fields, field.nameIn? .name = some name) ∧
        ∀ name, members.lookup name = (v.member? name).map ofConstant) ∧
      (v.kind ∈ [.intValue, .floatValue, .stringValue, .booleanValue, .enumValue] →
        (ofConstant v = null ↔ v.OutOfRange)) := by
  have hconstant := Target.isConstant_of_parse h
  refine ⟨hconstant.at?_ofConstant, fun steps => ?_, fun steps v hv => ?_⟩
  · rw [hconstant.at?_ofConstant, Option.map_eq_some_iff]
    refine exists_congr fun v => and_congr_right fun hv => ?_
    exact ofConstant_eq_null_iff (hconstant.of_valueAt hv)
  · have hnull := ofConstant_eq_null_iff (hconstant.of_valueAt hv)
    refine ⟨fun hkind => hnull.2 (.inl hkind), ofConstant_list, fun hkind => ?_, fun hkind => ?_⟩
    · obtain ⟨members, hmembers, hnodup, hlookup⟩ := ofConstant_object (hconstant.of_valueAt hv) hkind
      exact ⟨members, hmembers, hnodup,
        mem_names_iff (hconstant.of_valueAt hv) hkind hlookup, hlookup⟩
    · have hne : v.kind ≠ .nullValue := by
        intro heq
        rw [heq] at hkind
        revert hkind
        decide
      rw [hnull, or_iff_right hne]

/-- Null in a list, and an object with one name twice, the first time with null. -/
theorem ofConstant_parse_list :
    ∃ c, (Target.goal (.value .constant)).parse "[null, \x7ba: null, a: 1\x7d]" = .ok c ∧
      (ofConstant c).at? [.item 0] = some null ∧
      (ofConstant c).at? [.item 1, .member "a"] = some (integer 1) := by
  let field (value : Node) : Slot × Node :=
    (.fields, .mk (.objectField .constant) .none [(.name, .ofName "a"), (.value, value)])
  have hparse : (Target.goal (.value .constant)).parse "[null, \x7ba: null, a: 1\x7d]" =
      .ok (.mk (.listValue .constant) .none [(.values, .mk .nullValue .none []),
        (.values, .mk (.objectValue .constant) .none
          [field (.mk .nullValue .none []), field (.mk .intValue (.text "1") [])])]) := by
    decide +kernel
  obtain ⟨hplaces, hnull, -⟩ := ofConstant_parse hparse
  refine ⟨_, hparse, (hnull [.item 0]).2 ⟨.mk .nullValue .none [], by decide, .inl rfl⟩, ?_⟩
  have hlast : Node.valueAt? (.mk (.listValue .constant) .none [(.values, .mk .nullValue .none []),
      (.values, .mk (.objectValue .constant) .none
        [field (.mk .nullValue .none []), field (.mk .intValue (.text "1") [])])])
      [.item 1, .member "a"] = some (.mk .intValue (.text "1") []) := by
    decide
  have hone : Binary64.signed? "1".toList = some 1 := by decide
  rw [hplaces, hlast, Option.map_some, ofConstant, ofIntText, hone]
  rfl

/-- A number out of range denotes null. -/
theorem ofConstant_parse_infinite :
    ∃ c, (Target.goal (.value .constant)).parse "1e999" = .ok c ∧ c.kind = .floatValue ∧
      (ofConstant c).at? [] = some null := by
  refine ⟨.mk .floatValue (.text "1e999") [], by decide +kernel, rfl, congrArg some ?_⟩
  rw [ofConstant, (ofFloatText_scalar _).1]
  decide

end Json

end GraphQLTree
