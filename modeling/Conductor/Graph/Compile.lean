import Conductor.Graph.Tree

/-!
# Compiling graphs

A nested sequence is a concurrent group or a sequence, each level toggling; the root is a sequence.
A mapping directly after an action declares the outputs of that action and is no entry of its own.
Nothing is validated: an item that cannot be called, or an output that is not a branch list, fails
when a run reaches it.
-/

namespace Conductor

/-- What compiling has met so far: the registered actions and the count of nodes. -/
structure Draft where
  registry : Registry := {}
  slots : Nat := 0

namespace Draft

def addNode (d : Draft) (item : Item) (path : Path) (isAsync : Bool) : Head × Draft :=
  let (index, registry) := d.registry.register item
  let name := (registry.entries[index]?.map (·.name)).getD .null
  (⟨d.slots, index, name, path, isAsync⟩, ⟨registry, d.slots + 1⟩)

end Draft

namespace Graph

mutual

/-- Compiles the items of a branch list whose entries so far number `position`. -/
def compileList (path : Path) (isAsync : Bool) (position : Nat) :
    List Item → Draft → List Entry × Draft
  | [], d => ([], d)
  | .list items :: rest, d =>
    let (inner, d) := compileList (path ++ [.entry position]) (!isAsync) 0 items d
    let (entries, d) := compileList path isAsync (position + 1) rest d
    (.nested inner :: entries, d)
  | .tuple items :: rest, d =>
    let (inner, d) := compileList (path ++ [.entry position]) (!isAsync) 0 items d
    let (entries, d) := compileList path isAsync (position + 1) rest d
    (.nested inner :: entries, d)
  | item :: .mapping _ _ outputs :: rest, d =>
    let (head, d) := d.addNode item (path ++ [.entry position]) isAsync
    let (routes, d) := compileOutputs head.path outputs d
    let (entries, d) := compileList path isAsync (position + 1) rest d
    (.node head (some routes) :: entries, d)
  | item :: rest, d =>
    let (head, d) := d.addNode item (path ++ [.entry position]) isAsync
    let (entries, d) := compileList path isAsync (position + 1) rest d
    (.node head none :: entries, d)

/-- Compiles the outputs declared for the node at `path`. -/
def compileOutputs (path : Path) :
    List (Key × Item) → Draft → List (Key × Branch) × Draft
  | [], d => ([], d)
  | (k, item) :: rest, d =>
    let (branch, d) := compileOutput (path ++ [.output k]) item d
    let (routes, d) := compileOutputs path rest d
    ((k, branch) :: routes, d)

/-- Compiles one output: a sequence starts over as a sequence, anything else stays as it is. -/
def compileOutput (path : Path) : Item → Draft → Branch × Draft
  | .list items, d =>
    let (entries, d) := compileList path false 0 items d
    (.list entries, d)
  | .tuple items, d =>
    let (entries, d) := compileList path false 0 items d
    (.list entries, d)
  | item, d => (.raw item, d)

end

def compileItems (items : List Item) : Tree :=
  let (branches, d) := compileList [] false 0 items {}
  { items := d.registry.items, names := d.registry.names, branches }

/-- Compiles a graph; one that cannot be walked through has no tree. -/
def compile (graph : Item) : Except Fault Tree :=
  graph.walk.map compileItems

end Graph

end Conductor
