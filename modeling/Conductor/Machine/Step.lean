import Conductor.Machine.Executor

/-!
# Steps of the machine

`step` is one move: taking a job off the queue, entering a routine, or going on with a frame. It is
total, and it is `none` exactly when the machine is idle with nothing left to wait for. A run of any
length is a number of steps.
-/

namespace Conductor.World

def suspend (w : World) (task future : FutureId) (stack : List Frame) : World :=
  { (w.setPosition task (.suspended stack) (some future)).onSettled future (.wake task future) with
    focus := .idle }

/-- Enters a routine on top of a stack. -/
def enter (w : World) (task : FutureId) (r : Routine) (stack : List Frame) : World :=
  { w with focus := .enter task r stack }

/-- Ends a routine and goes on with the stack below it. -/
def leave (w : World) (task : FutureId) (o : Outcome) (stack : List Frame) : World :=
  { w with focus := .leave task o stack }

def leaveWith (r : Outcome × World) (task : FutureId) (stack : List Frame) : World :=
  r.2.leave task r.1 stack

/-- Passes a failure from inside a node to that node, which handles it. -/
def passFailure (plan : Plan) (run : RunId) (node : Node) (task : FutureId) (stack : List Frame)
    (e : Raised) (w : World) : World :=
  leaveWith (w.handleFailure plan run node e) task stack

def failNode (plan : Plan) (run : RunId) (node : Node) (task : FutureId) (stack : List Frame)
    (e : Raised) (w : World) : World :=
  (w.note run (.failed node.head e)).passFailure plan run node task stack e

def completeReport (plan : Plan) (run : RunId) (call : Call) (x : Reported) (w : World) :
    Except Fault (Result × World) := do
  let r ← w.resultOf "payload" x
  let w ← w.complete plan run call.node r call.started
  return (r, w)

/-- Goes on after a node has reported: the result is merged, and its branch is followed. -/
def finishCall (plan : Plan) (run : RunId) (call : Call) (x : Reported) (body : Option FutureId)
    (task : FutureId) (stack : List Frame) (w : World) : World :=
  match w.completeReport plan run call x with
  | .error f =>
    let (e, w) := w.raise f
    w.failNode plan run call.node task stack e
  | .ok (r, w) => w.enter task (.follow run call.node r) (.following run call body :: stack)

def collectReport (w : World) (c : CompletionId) : Except Fault Reported × World :=
  match w.delegate c "_collect" with
  | .error f => (.error f, w)
  | .ok () => w.collect c

/-- The future of a concurrent descriptor, by its own method of waiting for it. -/
def waitedFor (w : World) (c : CompletionId) : Except Fault (Option FutureId) :=
  match w.delegate c "_wait" with
  | .error f => .error f
  | .ok () => w.awaited c

/-- Goes on after the call of a sequential node has ended. -/
def collectCall (plan : Plan) (run : RunId) (call : Call) (task : FutureId) (stack : List Frame)
    (w : World) : World :=
  match w.collectReport call.completion with
  | (.error f, w) =>
    let (e, w) := w.raise f
    w.failNode plan run call.node task stack e
  | (.ok x, w) =>
    -- The run may have settled while the body was waited for; then nothing is merged any more.
    if w.isSettled run then w.leave task (.ok .nothing) stack
    else w.finishCall plan run call x none task stack

def enterSequential (plan : Plan) (run : RunId) (node : Node) (task : FutureId)
    (stack : List Frame) (w : World) : World :=
  let (completion, w) := w.newCompletion (descriptor plan node .sequential)
  let call : Call := ⟨node, completion, w.clock⟩
  let w := w.beginNode plan run node
  let explicit := (plan.tree.actionFor node).acceptsCompletion
  match w.callAction plan run node (.completion .sequential completion) explicit with
  | (.error e, w) => w.failNode plan run node task stack e
  | (.ok (.plain _), w) => w.collectCall plan run call task stack
  | (.ok (.routine scope steps), w) =>
    (w.note run (.began node.head none)).enter task (.script scope ⟨[], steps⟩)
      (.returning run call :: stack)
  | (.ok (.future f), w) =>
    (w.note run (.began node.head (some f))).enter task (.wait f) (.returning run call :: stack)

/-- Has the end of a member's body noticed, and gives the member a chain. -/
def chainMember (run : RunId) (call : Call) (explicit : Bool) (body : FutureId) (w : World) :
    FutureId × World :=
  let w := w.note run (.began call.node.head (some body))
  let w := w.onSettled body (.bodyEnded run call.node call.completion explicit body)
  w.newTask (.member run call (some body))

/-- Gives a member without a body a chain. One that was given no completion has completed. -/
def chainPlain (run : RunId) (call : Call) (explicit : Bool) (w : World) : FutureId × World :=
  -- Nobody else has the descriptor of such a member, so that recording on it cannot fail.
  let w := if explicit then w else (w.record call.completion (.result {})).2
  w.newTask (.member run call none)

/-- Dispatches a member of a group and gives it a chain, or fails the dispatch. -/
def dispatchMember (plan : Plan) (run : RunId) (node : Node) (w : World) :
    Except Raised FutureId × World :=
  let (completion, w) := w.newCompletion (descriptor plan node .concurrent)
  let call : Call := ⟨node, completion, w.clock⟩
  let explicit := (plan.tree.actionFor node).acceptsCompletion
  let w := w.beginNode plan run node
  match w.callAction plan run node (.completion .concurrent completion) explicit with
  | (.error e, w) => (.error e, w.note run (.failed node.head e))
  | (.ok (.routine scope steps), w) =>
    let (body, w) := w.newTask (.script scope ⟨[], steps⟩)
    let (chain, w) := w.chainMember run call explicit body
    (.ok chain, w)
  | (.ok (.future f), w) =>
    let (chain, w) := w.chainMember run call explicit f
    (.ok chain, w)
  | (.ok (.plain _), w) =>
    let (chain, w) := w.chainPlain run call explicit
    (.ok chain, w)

/-- A member that cannot be called rejects the run and ends the dispatch of its group. -/
def failDispatch (plan : Plan) (run : RunId) (e : Raised) (w : World) : Outcome × World :=
  if !e.fault.isOrdinary then (.error e, w)
  else match w.reject plan run e with
    | (.error refusal, w) => (.error refusal, w)
    | (.ok _, w) => w.leaving e

def enterScript (scope : Scope) (rest : Remainder) (task : FutureId) (stack : List Frame)
    (w : World) : World :=
  match runRemainder scope rest w with
  | (.finished, w) | (.returned _, w) => w.leave task (.ok .nothing) stack
  | (.failed e, w) => leaveWith (w.leaving e) task stack
  | (.paused (.sleep ticks) rest, w) => w.enter task (.sleep ticks) (.script scope rest :: stack)
  | (.paused (.run args) rest, w) => w.enter task (.runner args) (.script scope rest :: stack)

def enterRunner (args : Value) (task : FutureId) (stack : List Frame) (w : World) : World :=
  match w.heap.entriesOf args with
  | .error f =>
    let (e, w) := w.raise f
    w.leave task (.error e) stack
  | .ok entries =>
    let (run, w) := w.startRun entries
    w.enter task (.wait (w.outcomeOf run)) (.runner run :: stack)

def enterRoutine (plan : Plan) (task : FutureId) (stack : List Frame) (w : World) :
    Routine → World
  | .script scope rest => w.enterScript scope rest task stack
  | .runner args => w.resetNodes.enterRunner args task stack
  | .execute args => w.enterRunner args task stack
  | .delayed ticks args => w.enter task (.sleep ticks) (.delayed args :: stack)
  | .drive run => w.enter task (.branches run [] 0 plan.tree.branches) (.drive run :: stack)
  | .branches _ _ _ [] => w.leave task (.ok .nothing) stack
  | .branches run place position (entry :: rest) =>
    if w.isSettled run then w.leave task (.ok .nothing) stack
    else
      let stack := .branches run place (position + 1) rest :: stack
      -- A list in a sequence is a group, and a list in a group is a sequence again.
      match entry with
      | .node head outputs => w.enter task (.sequential run ⟨head, outputs⟩) stack
      | .nested members =>
        w.enter task (.dispatch run (place ++ [.entry position]) 0 members []) stack
  | .sequential run node => w.enterSequential plan run node task stack
  | .dispatch run _ _ [] chains =>
    let (joint, w) := w.newJoint chains
    w.enter task (.wait joint) (.joining run :: stack)
  | .dispatch run place position (.node head outputs :: rest) chains =>
    -- A member that raises ends the dispatch; the chains of those before it go on by themselves.
    match w.dispatchMember plan run ⟨head, outputs⟩ with
    | (.error e, w) => leaveWith (w.failDispatch plan run e) task stack
    | (.ok chain, w) =>
      w.enter task (.dispatch run place (position + 1) rest (chains ++ [chain])) stack
  | .dispatch run place position (.nested entries :: rest) chains =>
    let inner := place ++ [.entry position]
    let (chain, w) := (w.note run (.spawned inner)).newTask (.branches run inner 0 entries)
    w.enter task (.dispatch run place (position + 1) rest (chains ++ [chain])) stack
  | .member run call body =>
    match w.waitedFor call.completion with
    | .ok (some f) => w.enter task (.wait f) (.completing run call body :: stack)
    | .ok none => w.leave task (.ok .nothing) stack
    | .error f =>
      let (e, w) := w.raise f
      w.failNode plan run call.node task stack e
  | .follow run node r =>
    match w.selected node r with
    | .error f =>
      let (e, w) := w.raise f
      (w.note run (.failed node.head e)).leave task (.error e) stack
    | .ok none => w.leave task (.ok .nothing) stack
    | .ok (some (key, entries)) =>
      w.enter task (.branches run (node.path ++ [.output key]) 0 entries) stack
  -- What has settled is not waited for: the task goes on in the same step of the loop.
  | .wait f =>
    match w.settlement? f with
    | some s => leaveWith (w.deliver s) task stack
    | none => w.suspend task f stack
  | .yield =>
    { (w.setPosition task (.suspended stack) none).post w.agenda.loop (.resume task) with
      focus := .idle }
  | .sleep 0 => w.enter task .yield stack
  | .sleep ticks =>
    let (f, w) := w.newFuture (.plain .timed)
    (w.schedule ticks (.settle f .ok)).enter task (.wait f) stack

/-- Goes on with a frame after what it waited for has succeeded. -/
def resumeFrame (plan : Plan) (task : FutureId) (stack : List Frame) (v : Yield) (w : World) :
    Frame → World
  | .script scope rest => w.enter task (.script scope rest) stack
  | .runner _ => w.leave task (.ok v) stack
  | .delayed args => w.enter task (.runner args) stack
  | .drive run =>
    match w.resolve run with
    | (.ok (), w) => w.leave task (.ok .nothing) stack
    | (.error f, w) =>
      let (e, w) := w.raise f
      w.leave task (.error e) stack
  | .branches run place position rest => w.enter task (.branches run place position rest) stack
  | .returning run call =>
    (w.note run (.ended call.node.head)).collectCall plan run call task stack
  | .joining _ => w.leave task (.ok .nothing) stack
  | .completing run call body =>
    if w.isSettled run then
      (w.log (.discardedResult call.node.name)).leave task (.ok .nothing) stack
    else
      let x : Reported := match v with
        | .reported x => x
        | _ => .result {}
      w.finishCall plan run call x body task stack
  | .following run call body =>
    let w := w.note run (.followed call.node.head)
    match body with
    | none => w.leave task (.ok .nothing) stack
    | some b =>
      -- It waits through a future of its own: were the chain cancelled, the body would go on.
      let (waiter, w) := w.newFuture (.plain (.waiter b))
      (w.onSettled b (.release waiter b)).enter task (.wait waiter) (.ending run call b :: stack)
  | .ending _ _ _ => w.leave task (.ok .nothing) stack

/-- Goes on with a script after what it waited for has failed: an ordinary failure ends the innermost
open attempt. -/
def unwindScript (scope : Scope) (rest : Remainder) (task : FutureId) (stack : List Frame)
    (e : Raised) (w : World) : World :=
  match rest.attempts with
  | [] => w.leave task (.error e) stack
  | _ :: outer =>
    if e.fault.isOrdinary then
      (w.emitCaught e).enter task (.script scope { rest with attempts := outer }) stack
    else w.leave task (.error e) stack

/-- Goes on with a frame after what it waited for has failed. -/
def unwindFrame (plan : Plan) (task : FutureId) (stack : List Frame) (e : Raised) (w : World) :
    Frame → World
  | .drive run =>
    if !e.fault.isOrdinary then w.leave task (.error e) stack
    else match w.reject plan run e with
      | (.error refusal, w) => w.leave task (.error refusal) stack
      | (.ok _, w) => w.leave task (.ok .nothing) stack
  | .returning run call => w.failNode plan run call.node task stack e
  | .completing run call _ => w.failNode plan run call.node task stack e
  | .following run call _ => w.passFailure plan run call.node task stack e
  | .ending run call _ => w.passFailure plan run call.node task stack e
  | .script scope rest => w.unwindScript scope rest task stack e
  | .runner _ | .delayed _ | .branches _ _ _ _ | .joining _ => w.leave task (.error e) stack

def endTask (w : World) (task : FutureId) (o : Outcome) : World :=
  let s : Settlement := match o with
    | .ok v => .value v
    | .error e => if e.fault.nature = .cancelled then .cancelled (some e) else .failed e
  { (w.setPosition task .active none).settle task s with focus := .idle }

def isCancellation : Outcome → Bool
  | .error e => e.fault.nature = .cancelled
  | .ok _ => false

def activate (w : World) (task : FutureId) : World :=
  w.repurpose task (.task .active none false)

/-- Wakes a task up with what it waited for, or with a cancellation if it is to be cancelled. -/
def wakeUp (w : World) (task : FutureId) (mustCancel : Bool) (o : Outcome) : Outcome × World :=
  let w := w.activate task
  -- A cancellation that it waited for is not doubled.
  if mustCancel && !isCancellation o then
    let (e, w) := w.raise .cancelled
    (.error e, w)
  else (o, w)

def resumeTask (w : World) (task : FutureId) (o : Outcome) : World :=
  match w.future? task with
  | some { settled := none, purpose := .task (.unstarted r) _ mustCancel, .. } =>
    match w.wakeUp task mustCancel o with
    | (.ok _, w) => w.enter task r []
    | (.error e, w) => w.leave task (.error e) []
  | some { settled := none, purpose := .task (.suspended stack) _ mustCancel, .. } =>
    leaveWith (w.wakeUp task mustCancel o) task stack
  | _ => w

def runJob (plan : Plan) (w : World) : Job → World
  | .resume task => w.resumeTask task (.ok .nothing)
  | .wake task future =>
    match w.settlement? future with
    | some s => let (o, w) := w.deliver s; w.resumeTask task o
    | none => w
  | .bodyEnded run node completion explicit body =>
    w.bodyEnded plan run node completion explicit body
  | .childEnded joint child => w.childEnded joint child
  | .release waiter _ => w.settle waiter (.value .nothing)
  | .callback scope steps =>
    match runSteps scope steps w with
    | (.failed e, w) => w.emitStray e.fault
    | (_, w) => w
  | .settle future how =>
    match w.reachTime future how with
    | .ok w => w
    | .error f => w.emitStray f
  | .stop => { w with agenda := { w.agenda with stopping := true } }

/-- One move of the machine; `none` when nothing is left to do or to wait for. -/
def step (plan : Plan) (w : World) : Option World :=
  match w.focus with
  | .enter task r stack => some (w.enterRoutine plan task stack r)
  | .leave task o [] => some (w.endTask task o)
  | .leave task (.ok v) (frame :: stack) => some (w.resumeFrame plan task stack v frame)
  | .leave task (.error e) (frame :: stack) => some (w.unwindFrame plan task stack e frame)
  | .idle =>
    match w.nextJob? with
    | some (j, w) => some (w.runJob plan j)
    | none => w.nextTurn?

end Conductor.World
