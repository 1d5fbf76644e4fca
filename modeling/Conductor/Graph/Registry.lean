import Conductor.Graph.Item
import Conductor.Value.Subscript

/-!
# The action registry

Actions in the order in which they were first met, each under one index. Two items are the same
action when they are the same object; equal objects that are not the same get indices of their own.
-/

namespace Conductor

structure Registered where
  item : Item
  name : Datum

/-- The distinct actions of a graph in the order of their first occurrence. -/
structure Registry where
  entries : List Registered := []

namespace Registry

def indexOf? (r : Registry) (id : Identity) : Option Nat :=
  r.entries.findIdx? fun e => e.item.identity = id

/-- The index of an item, which is added on first sight. -/
def register (r : Registry) (item : Item) : Nat × Registry :=
  match r.indexOf? item.identity with
  | some i => (i, r)
  | none => (r.entries.length, ⟨r.entries ++ [⟨item, item.action.displayName⟩]⟩)

def size (r : Registry) : Nat := r.entries.length

def items (r : Registry) : List Item := r.entries.map (·.item)

def names (r : Registry) : List Datum := r.entries.map (·.name)

/-- The name under an index; a negative index counts from the end. -/
def nameOf (r : Registry) (index : Value) : Except Fault Datum := do
  let i ← Value.indexIn "list" false r.size index
  return (r.entries[i]?.map (·.name)).getD .null

end Registry

end Conductor
