import GraphQLTree.Traversal.Transform

/-!
# Visitors

Visitors are hooks registered for constructs. A later hook for the same construct and occasion takes
the place of an earlier one, and nodes of kinds without hooks are left alone. Hooks for a union of
kinds are never run, since a node has a kind of its own.
-/

namespace GraphQLTree

/-- Hooks by construct, the latest first. -/
structure Visitors (σ : Type) where
  enters : List (Construct × Hook σ)
  leaves : List (Construct × Hook σ)

namespace Visitors

variable {σ : Type}

/-- No hooks at all. -/
def empty : Visitors σ := ⟨[], []⟩

/-- Registers a hook for entering nodes of a construct. -/
def onEnter (visitors : Visitors σ) (construct : Construct) (hook : Hook σ) : Visitors σ :=
  { visitors with enters := (construct, hook) :: visitors.enters }

/-- Registers a hook for leaving nodes of a construct. -/
def onLeave (visitors : Visitors σ) (construct : Construct) (hook : Hook σ) : Visitors σ :=
  { visitors with leaves := (construct, hook) :: visitors.leaves }

/-- Whether there is a hook for a construct. -/
def hasHooks (visitors : Visitors σ) (construct : Construct) : Bool :=
  (visitors.enters ++ visitors.leaves).any fun entry => entry.1 = construct

/-- Runs the hook for a node's kind, if there is one. -/
def run (hooks : List (Construct × Hook σ)) : Hook σ := fun node visit =>
  match hooks.lookup (.kind node.kind) with
  | some hook => hook node visit
  | none => pure none

/-- The hooks of a transformation with visitors. -/
def hooks (visitors : Visitors σ) : Hooks σ :=
  ⟨run visitors.enters, run visitors.leaves⟩

end Visitors

end GraphQLTree
