import Conductor.Machine.Script

/-!
# Running a graph

What a run does to its record, to the nodes and to the log: it calls actions, merges what they
report, looks up the branches they select, and settles once. A failure rejects the run if it is
still running; afterwards only the very error it was rejected with goes on upwards, and every other
failure is discarded.
-/

namespace Conductor.World

def record? (w : World) (run : RunId) : Option Record := w.records[run]?

def status (w : World) (run : RunId) : Status :=
  match w.record? run with
  | some r => r.status
  | none => .running

def isSettled (w : World) (run : RunId) : Bool := (w.status run).isSettled

def argsOf (w : World) (run : RunId) : DictRef :=
  match w.record? run with
  | some r => r.args
  | none => ⟨0⟩

def modifyNode (w : World) (n : Node) (change : NodeState → NodeState) : World :=
  { w with nodes := w.nodes.modify n.slot change }

/-- Clears the state of every node. The machine has a place for each node of its graph and no other. -/
def resetNodes (w : World) : World := { w with nodes := w.nodes.map fun _ => {} }

def setStatus (w : World) (run : RunId) (s : Status) : World :=
  { w with records := w.records.modify run fun r => { r with status := s } }.note run (.settled s)

/-- The future that the caller of a run waits for. -/
def outcomeOf (w : World) (run : RunId) : FutureId :=
  match w.record? run with
  | some r => r.outcome
  | none => 0

def resolve (w : World) (run : RunId) : Except Fault Unit × World :=
  match w.record? run with
  | none => (.ok (), w)
  | some r =>
    if r.status.isSettled then (.ok (), w)
    else
      let ms := w.elapsed r.started
      -- The record goes first: a caller that was cancelled meanwhile leaves it resolved all the same.
      let w := (w.setStatus run (.resolved ms)).log (.resolved ms)
      if w.isPending r.outcome then (.ok (), w.settle r.outcome (.value (.record run)))
      else (.error .alreadySettled, w)

/-- Rejects a run that is not settled. Tells whether `e` is the error the run was rejected with. -/
def reject (plan : Plan) (run : RunId) (e : Raised) (w : World) : Except Raised Bool × World :=
  match w.record? run with
  | none => (.ok false, w)
  | some r =>
    match r.status with
    | .resolved _ => (.ok false, w)
    | .rejected _ error => (.ok (error.is e), w)
    | .running =>
      let w := w.setStatus run (.rejected (w.elapsed r.started) e)
      let w := if plan.settings.logFailures then w.log (.rejected e.fault) else w
      -- The record is rejected by now, and stays so if the future refuses the error.
      match w.failFuture r.outcome e with
      | .ok w => (.ok true, w)
      | .error f =>
        let (refusal, w) := w.raise f
        (.error refusal, w)

/-- The failure with which a routine ends: the end of an iteration cannot leave it. -/
def leaving (w : World) (e : Raised) : Outcome × World :=
  if e.fault.nature = .stopIteration then
    let (e, w) := w.raise .stopIterationLeft
    (.error e, w)
  else (.error e, w)

/-- What becomes of a failure inside a node: an ordinary one rejects the run or is discarded, any
other passes. -/
def handleFailure (plan : Plan) (run : RunId) (node : Node) (e : Raised) (w : World) :
    Outcome × World :=
  if !e.fault.isOrdinary then (.error e, w)
  else match w.reject plan run e with
    | (.error refusal, w) => (.error refusal, w)
    | (.ok true, w) => w.leaving e
    | (.ok false, w) => (.ok .nothing, w.log (.discardedFailure node.name e.fault))

def beginNode (plan : Plan) (run : RunId) (node : Node) (w : World) : World :=
  let args := if plan.settings.snapshotArgs then w.heap.dict (w.argsOf run) else []
  let w := w.modifyNode node fun s => { s with executing := true, args }
  if plan.settings.traceNodes then w.log (.running node.name node.path) else w

def descriptor (plan : Plan) (node : Node) (policy : Policy) : Descriptor where
  nodeName := node.name
  declared := node.outputNames
  defaultOutput := (plan.tree.actionFor node).defaultOutput
  policy := policy

/-- Calls the action of a node with the shared args, the store and, if it takes one, its
completion. -/
def callAction (plan : Plan) (run : RunId) (node : Node) (completion : Value)
    (explicit : Bool) (w : World) : Except Raised Returned × World :=
  let action := plan.tree.actionFor node
  let args := w.argsOf run
  let w := w.note run (.called node.head (w.heap.dict args))
  w.invoke action ([.dict args, .store] ++ (if explicit then [completion] else []))

/-- Merges the result of a node into the shared args and marks the node as executed. -/
def complete (plan : Plan) (run : RunId) (node : Node) (r : Result) (started : Nat) (w : World) :
    Except Fault World :=
  match w.heap.merge (w.argsOf run) r.payload with
  | .error f => .error f
  | .ok heap =>
    -- The payload is noted as it was before the merge, which may change it: it can be the args.
    let w := w.note run (.completed node.head r ((w.heap.mapping? r.payload).getD []))
    let ms := w.elapsed started
    let w := { w with heap }.modifyNode node fun s =>
      { s with executing := false, executed := true, output := r.payload, outputPath := r.path
               duration := ms }
    .ok (if plan.settings.traceNodes then
      w.log (.completed node.name node.path (w.heap.read r.path) ms) else w)

/-- The branch list that a result selects, with its key among the outputs: none without an output; a
fault if the output is not declared or does not lead to a branch list. -/
def selected (w : World) (node : Node) (r : Result) : Except Fault (Option (Key × List Entry)) :=
  match r.path with
  | .atom .null => .ok none
  | path =>
    let undeclared : Fault := .undeclaredOutput node.name node.path.data (w.heap.read path)
      (node.outputNames.map .ofKey)
    -- Without routes nothing is looked up, so that even an output that is no key is undeclared.
    if node.routes.isEmpty then .error undeclared
    else do
      let key ← Template.keyOf path
      match node.route? key with
      | none => .error undeclared
      | some (declared, .list entries) => return some (declared, entries)
      | some (_, .raw _) => .error (.outputNotBranch node.name (w.heap.read path))

/-- Adds the record of a run, which from then on is the latest. -/
def addRecord (w : World) (r : Record) : World :=
  { w with records := w.records.push r, lastRun := some w.records.size }

/-- Makes the record of a run and the future of its caller, and starts the task that drives it. -/
def startRun (w : World) (args : Entries) : RunId × World :=
  let run := w.records.size
  let (r, heap) := w.heap.newDict args
  let (outcome, w) := { w with heap }.newFuture (.plain (.outcome run))
  let w := (w.addRecord { args := r, started := w.clock, outcome }).log .started
  (run, (w.newTask (.drive run)).2)

/-- Fails the completion of a group member whose body has failed, by its descriptor's own method. -/
def failBody (w : World) (c : CompletionId) (e : Raised) : Except Fault World :=
  match w.delegate c "_fail" with
  | .error f => .error f
  | .ok () => w.failCompletion c e

/-- Whether the completion of a group member has settled, as its descriptor tells. -/
def bodyCompleted (w : World) (c : CompletionId) : Except Fault Bool :=
  match w.delegate c "_is_done" with
  | .error f => .error f
  | .ok () => w.isDone c

/-- Notes that the failure of a member's body was kept from the run. -/
def noteUnheard (w : World) (run : RunId) (node : Node) (c : CompletionId) (e : Raised) : World :=
  match w.completion? c with
  | some x => w.note run (.unheard node.head e x.descriptor)
  | none => w

/-- The body of a group member has ended. Nobody takes a fault of what is done about that, so the
outside sees it. -/
def bodyEnded (plan : Plan) (run : RunId) (node : Node) (completion : CompletionId)
    (explicit : Bool) (body : FutureId) (w : World) : World :=
  match w.settlement? body with
  | some (.cancelled _) =>
    -- Nothing asks here whether the completion has settled; one that has keeps what it was given.
    let (e, w) := w.raise .bodyCancelled
    match w.failBody completion e with
    | .ok w => w
    | .error f => w.emitStray f
  | some (.failed e) =>
    match w.bodyCompleted completion with
    | .error f => (w.noteUnheard run node completion e).emitStray f
    | .ok true =>
      -- The chain of the member no longer waits for the completion, so the run is told at once.
      let w := w.note run (.failed node.head e)
      match w.reject plan run e with
      | (.error refusal, w) => w.emitStray refusal.fault
      | (.ok true, w) => w
      | (.ok false, w) => w.log (.discardedFailure node.name e.fault)
    | .ok false =>
      -- The chain waits for the completion, and fails the node when it is woken with the failure.
      match w.failBody completion e with
      | .ok w => w
      | .error f => (w.noteUnheard run node completion e).emitStray f
  | some (.value _) =>
    -- A member that was handed its completion has to use it; any other one completes by ending.
    if explicit then w
    else match w.record completion (.result {}) with
      | (.ok (), w) => w
      | (.error f, w) => w.emitStray f
  | none => w

end Conductor.World
