import GraphQLTree.Grammar.Rule

/-!
# Productions of goals

Which productions a goal may be derived by, and which goals can be read at all. There are finitely many
productions, so what is said of the rules of all of them is checked by going through them
(`Production.check`).
-/

namespace GraphQLTree

/-! ### Going through productions -/

theorem Kind.mem_all (kind : Kind) : kind ∈ Kind.all := by
  cases kind with
  | listValue family => cases family <;> decide
  | objectValue family => cases family <;> decide
  | objectField family => cases family <;> decide
  | argument family => cases family <;> decide
  | argumentSet family => cases family <;> decide
  | directive family => cases family <;> decide
  | schema role => cases role <;> decide
  | scalarType role => cases role <;> decide
  | objectType role => cases role <;> decide
  | interfaceType role => cases role <;> decide
  | unionType role => cases role <;> decide
  | enumType role => cases role <;> decide
  | inputObjectType role => cases role <;> decide
  | _ => decide

namespace Production

/-- Every production once. -/
def all : List Production :=
  Kind.all.map of ++ [shorthand, interfaces, unionMembers, argumentDefinitions]

theorem mem_all (p : Production) : p ∈ all := by
  cases p with
  | of kind => exact List.mem_append_left _ (List.mem_map_of_mem kind.mem_all)
  | _ => exact List.mem_append_right _ (by decide)

/-- What holds of all productions when it is checked one by one. -/
theorem check (test : Production → Bool) (h : all.all test = true) (p : Production) :
    test p = true :=
  List.all_eq_true.1 h p p.mem_all

end Production

/-! ### Goals -/

namespace Goal

/-- The productions that a goal may be derived by. -/
def productions : Goal → List Production
  | production p => [p]
  | operation => [.shorthand, .of .operationDefinition]
  | inputValues => [.argumentDefinitions, .of .inputValueDefinitionSet]
  | value .general => .of .variableUse :: values .general
  | value .constant => values .constant
  | selection => [.of .field, .of .fragmentSpread, .of .inlineFragment]
  | type => [.of .namedType, .of .listType]
  | directiveLocation => [.of .executableLocation, .of .typeSystemLocation]
  | definition =>
    [.shorthand, .of .operationDefinition, .of .fragmentDefinition, .of .directiveDefinition] ++
      Role.all.flatMap fun role =>
        [.of (.schema role), .of (.scalarType role), .of (.objectType role),
          .of (.interfaceType role), .of (.unionType role), .of (.enumType role),
          .of (.inputObjectType role)]
where
  /-- Values without variables outside them. -/
  values (family : Family) : List Production :=
    [.of .intValue, .of .floatValue, .of .stringValue, .of .booleanValue, .of .nullValue,
      .of .enumValue, .of (.listValue family), .of (.objectValue family)]

end Goal

/-- Whether texts of a production can be read at all. Names, comments and documents have other
readers, named types are read behind `implements` or an equals sign, and an exclamation mark is only
looked for behind a type. -/
def Production.isReadable : Production → Bool
  | of .name => false
  | of .blockComment => false
  | of .inlineComment => false
  | of .document => false
  | of .namedTypeSet => false
  | of .nonNullType => false
  | _ => true

/-- Whether texts of a goal can be read, and an operation in both of its forms. -/
def Goal.isReadable (goal : Goal) : Bool :=
  goal.productions.all Production.isReadable &&
    (!goal.productions.contains (.of .operationDefinition) ||
      goal.productions.contains .shorthand)

theorem Goal.isReadable_of_mem {goal : Goal} (h : goal.isReadable = true) {p : Production}
    (hp : p ∈ goal.productions) : p.isReadable = true :=
  List.all_eq_true.1 (Bool.and_eq_true_iff.1 h).1 p hp

/-- An operation that is asked for may be written as a selection set alone. -/
theorem Goal.shorthand_mem {goal : Goal} (h : goal.isReadable = true)
    (hp : .of .operationDefinition ∈ goal.productions) : .shorthand ∈ goal.productions := by
  have h := (Bool.and_eq_true_iff.1 h).2
  simpa [hp] using h

/-- The goals that a part asks for, and the slots that their nodes go to. -/
def Part.asks : Part → List (Slot × Goal)
  | child slot goal => [(slot, goal)]
  | opened _ slot goal => [(slot, goal)]
  | listed slot goal _ _ => [(slot, goal)]
  | repeated slot goal _ => [(slot, goal)]
  | separated slot goal _ => [(slot, goal)]
  | _ => []

/-- Whether the own slot of a part is for comments if and only if the part keeps comments there. -/
def Part.hasTidySlot : Part → Bool
  | bracket _ slot => slot.holdsComments
  | name slot _ => !slot.holdsComments
  | spacedName slot => !slot.holdsComments
  | juxtaposed _ => false
  | _ => true

/-- Whether a part can be read: it asks for readable goals only, and keeps nodes and comments
apart. -/
def Part.isReadable (part : Part) : Bool :=
  (part.asks.all fun ask => !ask.1.holdsComments && ask.2.isReadable) && part.hasTidySlot

/-- What a part asks for doesn't go where comments go, and can be read. -/
theorem Part.isReadable_of_asks {part : Part} (h : part.isReadable = true) {ask : Slot × Goal}
    (hask : ask ∈ part.asks) : ask.1.holdsComments = false ∧ ask.2.isReadable = true := by
  simpa using List.all_eq_true.1 (Bool.and_eq_true_iff.1 h).1 ask hask

/-- Whether an item can be read. -/
def Item.isReadable : Item → Bool
  | part p => p.isReadable
  | group _ _ parts => parts.all Part.isReadable

/-- Readable productions have items, which can be read. -/
theorem Production.items_isReadable {p : Production} (h : p.isReadable = true) :
    p.rule.items ≠ [] ∧ ∀ item ∈ p.rule.items, item.isReadable = true := by
  have hcheck := Production.check (fun p => !p.isReadable ||
    (p.rule.items ≠ [] && p.rule.items.all Item.isReadable)) (by decide) p
  simpa [h] using hcheck

end GraphQLTree
