import Conductor.Graph.Literal
import Conductor.Report

/-!
# Sessions

A session compiles a graph once and runs it many times on one machine. Runs are started by callers,
each a task of its own; the machine then works until it is idle, and every caller is observed at the
moment it ends. A run may also have a loop to itself, which is closed afterwards: whatever is still
pending there is cancelled.
-/

namespace Conductor

inductive Ending where
  | resolved
  | raised (e : Raised)
  deriving Repr

/-- What is seen at the moment a caller ends: its record if it came out with one, and otherwise the
latest. `same` tells whether it came out with the latest record, or with the error of that. -/
structure Observation where
  ending : Ending
  same : Bool
  tick : Nat
  run : Option RunView
  nodes : List NodeView

/-- A caller: its task, the args it passed, and what was seen when it ended. -/
structure Caller where
  task : FutureId
  initial : Value
  observed : Option Observation := none

/-- A runner of one graph with the machine it uses. `loops` counts the loops opened so far, and
`callers` are all that were started so far on the main loop: one that is left waiting by an operation
may end during a later one. -/
structure Session where
  plan : Plan
  world : World := {}
  loops : Nat := 0
  callers : List Caller := []

inductive Operation where
  | run (args : Template)
  | overlap (runs : List (Template × Nat))
  | execute (args : Template)
  | alone (args : Template)
  | report
  | reset
  | shown

structure Aftermath where
  tick : Nat
  final : Option RunView
  nodes : List NodeView
  events : List Event

/-- A caller as an operation leaves it: what was seen when it ended, and the args it passed as they
are at the end of the operation. -/
structure CallerView where
  task : FutureId
  observed : Option Observation
  initial : Datum

inductive Answer where
  | runs (callers : List CallerView) (after : Aftermath)
  | alone (ending : Option (Ending × Bool)) (after : Aftermath)
  | report (r : Option (Except (List Misfit) RunReport))
  | nodes (views : List NodeView)
  | shown (texts : List String)
  | failed (f : Fault)

namespace World

def isLast (w : World) (run : RunId) : Bool := w.lastRun = some run

def isLastError (w : World) (e : Raised) : Bool :=
  match (w.lastRun.map w.status).bind Status.error? with
  | some error => error.is e
  | none => false

/-- The record that a task came out with, or else the latest one. -/
def seenRecord? (w : World) (task : FutureId) : Option Record :=
  match w.settlement? task with
  | some (.value (.record run)) => w.record? run
  | _ => w.lastRun.bind w.record?

/-- How a task came out, and whether it came out with what the latest record holds. -/
def ending? (w : World) (task : FutureId) : Option (Ending × Bool) :=
  match w.settlement? task with
  | none => none
  | some (.value (.record run)) => some (.resolved, w.isLast run)
  | some (.value _) => some (.resolved, false)
  | some (.failed e) => some (.raised e, w.isLastError e)
  | some (.cancelled (some e)) => some (.raised e, w.isLastError e)
  | some (.cancelled none) => some (.raised ⟨w.raisedCount, .cancelled⟩, false)

def observe (w : World) (t : Tree) (c : Caller) : Caller :=
  match c.observed, w.ending? c.task with
  | none, some (ending, same) =>
    let run := (w.seenRecord? c.task).map (w.viewRun t)
    { c with observed := some ⟨ending, same, w.clock, run, w.viewNodes t⟩ }
  | _, _ => c

/-- Lets the machine work until it is idle, observing callers as they end, for at most `fuel`
steps. -/
def work (plan : Plan) : Nat → List Caller → World → List Caller × World
  | 0, callers, w => (callers, w)
  | fuel + 1, callers, w =>
    match w.step plan with
    | none => (callers, w)
    | some w => work plan fuel (callers.map (w.observe plan.tree)) w

def isBetweenTurns (w : World) : Bool :=
  match w.focus with
  | .idle => w.agenda.left = 0
  | _ => false

/-- Lets the machine work until its loop is told to stop, or has nothing left to wait for. Tells
whether it was told to stop. -/
def workUntilStopped (plan : Plan) : Nat → World → Bool × World
  | 0, w => (false, w)
  | fuel + 1, w =>
    if w.isBetweenTurns && w.agenda.stopping then (true, w)
    else match w.step plan with
      | none => (false, w)
      | some w => workUntilStopped plan fuel w

def finishTurn (plan : Plan) : Nat → World → World
  | 0, w => w
  | fuel + 1, w =>
    if w.isBetweenTurns then w
    else match w.step plan with
      | none => w
      | some w => finishTurn plan fuel w

/-- Runs a number of turns in which the clock stands still. -/
def turns (plan : Plan) (fuel : Nat) : Nat → World → World
  | 0, w => w
  | n + 1, w => turns plan fuel n (w.beginTurn.finishTurn plan fuel)

def pendingTasks (w : World) : List FutureId :=
  (w.futures.toList.zipIdx.filter fun (f, _) =>
    f.loop = w.agenda.loop && f.settled.isNone
      && match f.purpose with
        | .task _ _ _ => true
        | _ => false).map (·.2)

def turnsUntilEnded (plan : Plan) (fuel : Nat) (tasks : List FutureId) : Nat → World → World
  | 0, w => w
  | n + 1, w =>
    if tasks.any w.isPending then
      turnsUntilEnded plan fuel tasks n (w.beginTurn.finishTurn plan fuel)
    else w

/-- How many turns a loop takes to shut down: two for each of its two services, and two before them
if there were tasks to wait for. -/
def shutdownTurns (waited : Bool) : Nat := if waited then 6 else 4

/-- Closes the running loop: its pending tasks are cancelled and run to their end, and then the loop
shuts down. Its timers are dropped. -/
def closeLoop (plan : Plan) (fuel : Nat) (w : World) : World :=
  let tasks := w.pendingTasks
  let w := tasks.foldl cancel w
  let w := turnsUntilEnded plan fuel tasks fuel w
  let w := w.turns plan fuel (shutdownTurns !tasks.isEmpty)
  { w with agenda := { ready := w.agenda.parked } }

/-- Opens a loop of its own, while the main loop waits. -/
def openLoop (w : World) (number : Nat) : World :=
  { w with agenda := { loop := number, parked := w.agenda.ready } }

end World

namespace Session

def fuel : Nat := 100000000

def create (graph : Literal) (workshop : Workshop) (settings : Settings) :
    Except Fault Session :=
  match workshop.make graph with
  | (.error f, _) => .error f
  | (.ok item, workshop) => do
    let tree ← Graph.compile item
    let world : World := {
      heap := workshop.heap
      nodes := Array.replicate tree.nodeCount {}
      logs := #[.compiled tree.nodeCount tree.items.length] }
    return { plan := { tree, settings }, world }

/-- What is seen after an operation that began with `seen` events. -/
def aftermath (s : Session) (seen : Nat) : Aftermath where
  tick := s.world.clock
  final := s.world.viewLast s.plan.tree
  nodes := s.world.viewNodes s.plan.tree
  events := s.world.events.toList.drop seen

def startCallers : List (Template × (Value → Routine)) → World → Except Fault (List Caller) × World
  | [], w => (.ok [], w)
  | (t, routine) :: rest, w =>
    match t.make w.heap with
    | (.error f, heap) => (.error f, { w with heap })
    | (.ok v, heap) =>
      let (task, w) := { w with heap }.newTask (routine v)
      match startCallers rest w with
      | (.error f, w) => (.error f, w)
      | (.ok callers, w) => (.ok (⟨task, v, none⟩ :: callers), w)

/-- Starts callers, lets the machine work until it is idle, and answers what was seen. -/
def runCallers (s : Session) (starts : List (Template × (Value → Routine))) : Answer × Session :=
  let seen := s.world.events.size
  match startCallers starts s.world with
  | (.error f, world) => (.failed f, { s with world })
  | (.ok started, world) =>
    let (callers, world) := world.work s.plan fuel (s.callers ++ started)
    let s := { s with world, callers }
    let views := (callers.drop (callers.length - started.length)).map fun c =>
      ⟨c.task, c.observed, world.heap.read c.initial⟩
    (.runs views (s.aftermath seen), s)

/-- Runs the graph once on a loop of its own. -/
def runAlone (s : Session) (t : Template) : Answer × Session :=
  let seen := s.world.events.size
  match t.make s.world.heap with
  | (.error f, heap) => (.failed f, { s with world := { s.world with heap } })
  | (.ok v, heap) =>
    let world := { s.world with heap }.openLoop (s.loops + 1)
    let (main, world) := world.newTask (.runner v)
    let (stopped, world) := (world.onSettled main .stop).workUntilStopped s.plan fuel
    let ending := if stopped then world.ending? main else none
    let s := { s with world := world.closeLoop s.plan fuel, loops := s.loops + 1 }
    (.alone ending (s.aftermath seen), s)

/-- The routine of a caller that may first wait. -/
def delayedRun (ticks : Nat) (v : Value) : Routine :=
  if ticks = 0 then .runner v else .delayed ticks v

def shownRunner (t : Tree) : String :=
  "SignalRunner(nodes=" ++ toString t.nodeCount ++ ", actions=" ++ Fault.shownItems t.names ++ ")"

def perform (s : Session) : Operation → Answer × Session
  | .run args => s.runCallers [(args, .runner)]
  | .overlap runs => s.runCallers (runs.map fun (args, delay) => (args, delayedRun delay))
  | .execute args => s.runCallers [(args, .execute)]
  | .alone args => s.runAlone args
  | .report =>
    match (s.world.lastRun.bind s.world.record?).map (Report.ofRecord s.world s.plan.tree) with
    | some (.ok r) => (if r.isTooDeep then .failed .reportTooDeep else .report (some (.ok r)), s)
    | r => (.report r, s)
  | .reset =>
    let s := { s with world := s.world.resetNodes }
    (.nodes (s.world.viewNodes s.plan.tree), s)
  | .shown => (.shown (shownRunner s.plan.tree :: s.plan.tree.nodes.map Node.shown), s)

def performEach (s : Session) : List Operation → List Answer × Session
  | [] => ([], s)
  | o :: os =>
    let (a, s) := s.perform o
    let (as_, s) := performEach s os
    (a :: as_, s)

def settleCaller (s : Session) (c : CallerView) : CallerView :=
  match s.callers.find? fun known => known.task = c.task with
  | some known => { c with observed := known.observed }
  | none => c

def settleAnswer (s : Session) : Answer → Answer
  | .runs callers after => .runs (callers.map s.settleCaller) after
  | a => a

/-- Carries out operations one after the other. A caller that an operation leaves waiting is answered
for when it ends, if a later operation lets it end. -/
def performAll (s : Session) (os : List Operation) : List Answer × Session :=
  let (answers, s) := s.performEach os
  (answers.map s.settleAnswer, s)

end Session

end Conductor
