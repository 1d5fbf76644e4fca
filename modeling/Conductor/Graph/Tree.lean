import Conductor.Graph.Registry

/-!
# The action tree

The compiled form of a graph: branch lists of nodes and nested lists, where every node knows its
address and may route each of its outputs to a branch list of its own. A node's `slot` counts the
nodes before it in the walk through the tree; the state of a node during a run is kept under it.
-/

namespace Conductor

/-- One move from a branch list towards a node: to the entry at a place, or from a node to one of
its outputs. -/
inductive Hop where
  | entry (position : Nat)
  | output (key : Key)
  deriving Repr

/-- The address of a node. -/
abbrev Path := List Hop

namespace Path

/-- A path as it is shown: an output takes two items, the word and the key. -/
def data : Path → List Datum
  | [] => []
  | .entry i :: rest => .int i :: data rest
  | .output k :: rest => .text "outputs" :: .ofKey k :: data rest

end Path

/-- What a node is, apart from where its outputs lead. -/
structure Head where
  slot : Nat
  action : Nat
  name : Datum
  path : Path
  isAsync : Bool

mutual

/-- An entry of a branch list: a node, or a nested list. -/
inductive Entry where
  | node (head : Head) (outputs : Option (List (Key × Branch)))
  | nested (entries : List Entry)

/-- Where an output leads: to a branch list, or to an item that is none. -/
inductive Branch where
  | list (entries : List Entry)
  | raw (item : Item)

end

/-- One compiled occurrence of an action. -/
structure Node where
  head : Head
  outputs : Option (List (Key × Branch))

namespace Node

def slot (n : Node) : Nat := n.head.slot

def name (n : Node) : Datum := n.head.name

def path (n : Node) : Path := n.head.path

def isAsync (n : Node) : Bool := n.head.isAsync

def routes (n : Node) : List (Key × Branch) := n.outputs.getD []

def outputNames (n : Node) : List Key := n.routes.map (·.1)

def route? (n : Node) (k : Key) : Option (Key × Branch) :=
  n.routes.find? fun r => r.1.same k

def shown (n : Node) : String :=
  "ActionNode(" ++ n.name.shown ++ ", " ++ (if n.isAsync then "async" else "sync") ++ ", path="
    ++ Fault.shownItems n.path.data ++ ")"

end Node

mutual

/-- The nodes of an entry: a node before the nodes of its outputs. -/
def Entry.nodes : Entry → List Node
  | .node head outputs =>
    ⟨head, outputs⟩ :: (match outputs with
      | none => []
      | some routes => nodesOfRoutes routes)
  | .nested entries => nodesOf entries

def nodesOf : List Entry → List Node
  | [] => []
  | e :: es => e.nodes ++ nodesOf es

def nodesOfRoutes : List (Key × Branch) → List Node
  | [] => []
  | (_, b) :: rest => b.nodes ++ nodesOfRoutes rest

def Branch.nodes : Branch → List Node
  | .list entries => nodesOf entries
  | .raw _ => []

end

/-- A compiled graph: every distinct action once, with its display name, and the root branch list. -/
structure Tree where
  items : List Item := []
  names : List Datum := []
  branches : List Entry := []

namespace Tree

def nodes (t : Tree) : List Node := nodesOf t.branches

def nodeCount (t : Tree) : Nat := t.nodes.length

def itemFor? (t : Tree) (n : Node) : Option Item := t.items[n.head.action]?

def actionFor (t : Tree) (n : Node) : Action :=
  match t.itemFor? n with
  | some i => i.action
  | none => .value .null {}

end Tree

end Conductor
