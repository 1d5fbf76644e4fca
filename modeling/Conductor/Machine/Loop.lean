import Conductor.Machine.State

/-!
# Futures and the queue

Creating and settling futures, waiting for them, cancelling tasks, and the turns of the queue. A
settled future never changes again, and settling appends its callbacks to the queue in the order in
which they were added.
-/

namespace Conductor.World

def post (w : World) (loop : Nat) (j : Job) : World :=
  if loop = w.agenda.loop then
    { w with agenda := { w.agenda with ready := w.agenda.ready ++ [j] } }
  -- The main loop stands still while a run has a loop of its own, and finds its jobs afterwards.
  else if loop = 0 then
    { w with agenda := { w.agenda with parked := w.agenda.parked ++ [j] } }
  -- Any other loop is closed.
  else w

def postAll (w : World) (loop : Nat) (js : List Job) : World := js.foldl (·.post loop ·) w

/-- Places a timer after all that are due no later. -/
def insertTimer (t : Timer) : List Timer → List Timer
  | [] => [t]
  | u :: rest => if u.due ≤ t.due then u :: insertTimer t rest else t :: u :: rest

def schedule (w : World) (ticks : Nat) (j : Job) : World :=
  { w with agenda := { w.agenda with timers := insertTimer ⟨w.clock + ticks, j⟩ w.agenda.timers } }

def future? (w : World) (f : FutureId) : Option Future := w.futures[f]?

def purpose? (w : World) (f : FutureId) : Option Purpose := (w.future? f).map (·.purpose)

def settlement? (w : World) (f : FutureId) : Option Settlement :=
  (w.future? f).bind (·.settled)

def isPending (w : World) (f : FutureId) : Bool :=
  match w.future? f with
  | some future => future.settled.isNone
  | none => false

def newFuture (w : World) (purpose : Purpose) : FutureId × World :=
  (w.futures.size, { w with futures := w.futures.push { loop := w.agenda.loop, purpose } })

def modifyFuture (w : World) (f : FutureId) (change : Future → Future) : World :=
  { w with futures := w.futures.modify f change }

def repurpose (w : World) (f : FutureId) (p : Purpose) : World :=
  w.modifyFuture f fun x => { x with purpose := p }

/-- Settles a pending future and appends its callbacks to the queue; a settled one stays. -/
def settle (w : World) (f : FutureId) (s : Settlement) : World :=
  match w.future? f with
  | some future =>
    if future.settled.isSome then w
    else
      (w.modifyFuture f fun x => { x with settled := some s, callbacks := [] }).postAll
        future.loop future.callbacks
  | none => w

/-- Has a job appended when a future settles, or at once if it has. -/
def onSettled (w : World) (f : FutureId) (j : Job) : World :=
  match w.future? f with
  | some future =>
    if future.settled.isSome then w.post future.loop j
    else w.modifyFuture f fun x => { x with callbacks := x.callbacks ++ [j] }
  | none => w

/-- Fails a pending future. The end of an iteration cannot be set as a failure, and a settled future
takes none. -/
def failFuture (w : World) (f : FutureId) (e : Raised) : Except Fault World :=
  if !w.isPending f then .error .alreadySettled
  else if e.fault.nature = .stopIteration then .error .stopIterationSet
  else .ok (w.settle f (.failed e))

/-- Adds a task, whose first step joins the queue. -/
def newTask (w : World) (r : Routine) : FutureId × World :=
  let (t, w) := w.newFuture (.task (.unstarted r) none false)
  (t, w.post w.agenda.loop (.resume t))

/-- A future that settles with the first failure among its children, or when all have ended. -/
def newJoint (w : World) (children : List FutureId) : FutureId × World :=
  let (joint, w) := w.newFuture (.joint children 0 false)
  -- No child would ever tell it of its end.
  if children.isEmpty then (joint, w.settle joint (.value .nothing))
  else (joint, children.foldl (fun w child => w.onSettled child (.childEnded joint child)) w)

def setPosition (w : World) (t : FutureId) (p : Position) (waiting : Option FutureId) : World :=
  match w.purpose? t with
  | some (.task _ _ mustCancel) => w.repurpose t (.task p waiting mustCancel)
  | _ => w

/-- The outcome that a settlement delivers to whoever waits for it. -/
def deliver (w : World) : Settlement → Outcome × World
  | .value v => (.ok v, w)
  | .failed e => (.error e, w)
  | .cancelled (some e) => (.error e, w)
  | .cancelled none =>
    let (e, w) := w.raise .cancelled
    (.error e, w)

/-- Cancels a future. Tells whether there was anything to cancel. The futures waiting for one another
form no cycle, so `depth` may be their number. -/
def cancelWithin : Nat → FutureId → World → Bool × World
  | 0, _, w => (false, w)
  | depth + 1, f, w =>
    match w.future? f with
    | none => (false, w)
    | some future =>
      if future.settled.isSome then (false, w)
      else match future.purpose with
        | .plain _ => (true, w.settle f (.cancelled none))
        | .joint children ended _ =>
          let (any, w) := children.foldl (fun acc child =>
            let (done, w) := cancelWithin depth child acc.2
            (acc.1 || done, w)) (false, w)
          -- The joint future only remembers the request: it settles when its children end.
          if any then (true, w.repurpose f (.joint children ended true))
          else (false, w)
        | .task position waiting _ =>
          let (passedOn, w) := match waiting with
            | some g => cancelWithin depth g w
            | none => (false, w)
          -- The end of what the task waits for wakes it; where there is no such thing to cancel, the
          -- task is interrupted when it next goes on.
          if passedOn then (true, w)
          else (true, w.repurpose f (.task position waiting true))

def cancel (w : World) (f : FutureId) : World := (cancelWithin (w.futures.size + 1) f w).2

/-- A child of a joint future has ended: its failure or cancellation settles the joint future, and
so does the end of the last child. -/
def childEnded (w : World) (joint child : FutureId) : World :=
  match w.future? joint, w.settlement? child with
  | some future, some s =>
    match future.purpose with
    | .joint children ended cancelRequested =>
      let w := w.repurpose joint (.joint children (ended + 1) cancelRequested)
      if future.settled.isSome then w
      else match s with
        | .failed e => w.settle joint (.failed e)
        | .cancelled _ =>
          -- The joint future fails with the cancellation of its child, and is not itself cancelled.
          match w.deliver s with
          | (.error e, w) => w.settle joint (.failed e)
          | (.ok _, w) => w
        | .value _ =>
          if ended + 1 < children.length then w
          else if cancelRequested then
            let (e, w) := w.raise .cancelled
            w.settle joint (.failed e)
          else w.settle joint (.value .nothing)
    | _ => w
  | _, _ => w

def reachTime (w : World) (f : FutureId) : FutureEnd → Except Fault World
  | .ok => .ok (w.settle f (.value .nothing))
  | .cancel => .ok (w.settle f (.cancelled none))
  | .fail name message =>
    match Fault.ofRaise name message with
    | .error fault => .error fault
    | .ok fault =>
      let (e, w) := w.raise fault
      w.failFuture f e

/-- Moves the timers that are due to the end of the queue and begins a turn. -/
def beginTurn (w : World) : World :=
  let (due, rest) := w.agenda.timers.span fun t => t.due ≤ w.clock
  let ready := w.agenda.ready ++ due.map (·.job)
  { w with agenda := { w.agenda with ready, left := ready.length, timers := rest } }

/-- Begins the next turn, letting the clock advance to the next timer if the queue is empty; `none`
if there is nothing left to wait for. -/
def nextTurn? (w : World) : Option World :=
  match w.agenda.ready, w.agenda.timers with
  | [], [] => none
  | [], t :: _ => some { w with clock := max w.clock t.due }.beginTurn
  | _ :: _, _ => some w.beginTurn

def nextJob? (w : World) : Option (Job × World) :=
  match w.agenda.left, w.agenda.ready with
  | left + 1, j :: rest => some (j, { w with agenda := { w.agenda with ready := rest, left } })
  | _, _ => none

end Conductor.World
