import Conductor.Machine.Step

/-!
# Views

What can be seen of a run and of its nodes at one moment, read out of the heap so that later writes
leave it alone.
-/

namespace Conductor

structure NodeView where
  node : Node
  executing : Bool
  executed : Bool
  outputPath : Datum
  output : Datum
  args : List (Key × Datum)
  ms : Nat

structure RunView where
  status : Status
  args : List (Key × Datum)
  executed : List Path

namespace World

def nodeState (w : World) (n : Node) : NodeState := w.nodes[n.slot]?.getD {}

def viewNode (w : World) (n : Node) : NodeView :=
  let s := w.nodeState n
  { node := n, executing := s.executing, executed := s.executed
    outputPath := w.heap.read s.outputPath, output := w.heap.read s.output
    args := w.heap.readEntries s.args, ms := s.duration }

def viewNodes (w : World) (t : Tree) : List NodeView := t.nodes.map w.viewNode

def executedNodes (w : World) (t : Tree) : List Node :=
  t.nodes.filter fun n => (w.nodeState n).executed

def viewRun (w : World) (t : Tree) (r : Record) : RunView where
  status := r.status
  args := w.heap.readEntries (w.heap.dict r.args)
  executed := (w.executedNodes t).map (·.path)

def viewLast (w : World) (t : Tree) : Option RunView :=
  (w.lastRun.bind w.record?).map (w.viewRun t)

end World

end Conductor
