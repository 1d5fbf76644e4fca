import Conductor.Action.Call
import Conductor.Completion.Descriptor
import Conductor.Settings

/-!
# The state of a machine

Runs of one graph share a machine: a clock, a queue of jobs, futures and tasks, the heap, and the
state that each run and each node has reached. A task is a future that settles at its end; while it
waits, its stack of frames says where every routine it has entered will go on. All of it is data, so
a state of the machine is a value like any other.
-/

namespace Conductor

/-- The number of a future. Tasks are futures. -/
abbrev FutureId := Nat

/-- The number of a run, in the order in which records are made. -/
abbrev RunId := Nat

abbrev CompletionId := Nat

/-- What is fixed while a machine works: the graph and what its runs report. -/
structure Plan where
  tree : Tree
  settings : Settings := {}

/-- What a routine or a future yields when it succeeds. -/
inductive Yield where
  | nothing
  | reported (x : Reported)
  | record (run : RunId)

abbrev Outcome := Except Raised Yield

/-- How a future is settled. A task that ends by a cancellation keeps the fault that ended it. -/
inductive Settlement where
  | value (v : Yield)
  | failed (e : Raised)
  | cancelled (cause : Option Raised)

/-- One call of a node: its descriptor and when it started. -/
structure Call where
  node : Node
  completion : CompletionId
  started : Nat

/-- What a task can be told to do, from its beginning. -/
inductive Routine where
  /-- The body of an action, or what is left of it. -/
  | script (scope : Scope) (rest : Remainder)
  /-- A run of the graph from the given args. -/
  | runner (args : Value)
  /-- A run that keeps what earlier runs left on the nodes. -/
  | execute (args : Value)
  /-- A run that starts after some time. -/
  | delayed (ticks : Nat) (args : Value)
  /-- All of a run: its root list, and then its settlement. -/
  | drive (run : RunId)
  /-- The entries of the branch list at `place`, one after the other from the one at `position`. -/
  | branches (run : RunId) (place : Path) (position : Nat) (entries : List Entry)
  /-- A node in a sequence. -/
  | sequential (run : RunId) (node : Node)
  /-- The members of the group at `place` that are still to be dispatched, from the one at `position`
  on, and the chains begun. -/
  | dispatch (run : RunId) (place : Path) (position : Nat) (members : List Entry)
      (chains : List FutureId)
  /-- A dispatched member of a group, from its completion to the end of its body. -/
  | member (run : RunId) (call : Call) (body : Option FutureId)
  /-- The branch that a result selects. -/
  | follow (run : RunId) (node : Node) (result : Result)
  /-- Waiting for a future. -/
  | wait (future : FutureId)
  /-- Letting all other jobs of the queue go first. -/
  | yield
  /-- Waiting for some time. -/
  | sleep (ticks : Nat)

/-- Where a routine goes on when what it waits for has ended. -/
inductive Frame where
  | script (scope : Scope) (rest : Remainder)
  | runner (run : RunId)
  | delayed (args : Value)
  | drive (run : RunId)
  | branches (run : RunId) (place : Path) (position : Nat) (rest : List Entry)
  /-- A sequential node waits for what its call returned. -/
  | returning (run : RunId) (call : Call)
  /-- A group waits for its chains. -/
  | joining (run : RunId)
  /-- A member waits for its completion. -/
  | completing (run : RunId) (call : Call) (body : Option FutureId)
  /-- A node waits for the branch its result selected, and then perhaps for its body. -/
  | following (run : RunId) (call : Call) (body : Option FutureId)
  /-- A member waits for the end of its body. -/
  | ending (run : RunId) (call : Call) (body : FutureId)

/-- What the queue holds, and what a settled future appends to it. -/
inductive Job where
  /-- A task begins, or goes on after letting others go first. -/
  | resume (task : FutureId)
  /-- A task goes on with what it waited for. -/
  | wake (task future : FutureId)
  /-- The body of a group member has ended. -/
  | bodyEnded (run : RunId) (node : Node) (completion : CompletionId) (explicit : Bool)
      (body : FutureId)
  /-- A child of a joint future has ended. -/
  | childEnded (joint child : FutureId)
  /-- A future that somebody waits for through another one has ended. -/
  | release (waiter future : FutureId)
  /-- Steps that an action left for later. -/
  | callback (scope : Scope) (steps : List Step)
  /-- A future reaches its time. -/
  | settle (future : FutureId) (how : FutureEnd)
  /-- The main task of the loop has ended. -/
  | stop

inductive Position where
  | unstarted (routine : Routine)
  | suspended (stack : List Frame)
  | active

/-- What a future is there for that is settled from outside. -/
inductive Role where
  /-- The caller of a run waits for it. -/
  | outcome (run : RunId)
  /-- It takes the report of a concurrent descriptor. -/
  | report
  /-- It settles at once or after some time. -/
  | timed
  /-- It settles once another future has. -/
  | waiter (future : FutureId)

/-- What makes a future settle: somebody outside, its children, or its own routine. -/
inductive Purpose where
  | plain (role : Role)
  | joint (children : List FutureId) (ended : Nat) (cancelRequested : Bool)
  | task (position : Position) (waiting : Option FutureId) (mustCancel : Bool)

/-- A future of the loop with the number `loop`. -/
structure Future where
  loop : Nat
  settled : Option Settlement := none
  callbacks : List Job := []
  purpose : Purpose := .plain .timed

/-- How far a run is. A settled run knows how long it took, and a rejected one its error. -/
inductive Status where
  | running
  | resolved (ms : Nat)
  | rejected (ms : Nat) (error : Raised)

/-- The record of a run. `outcome` is the future its caller waits for. -/
structure Record where
  args : DictRef
  status : Status := .running
  started : Nat
  outcome : FutureId

/-- The state of a node, as the latest run that reached it left it. -/
structure NodeState where
  args : Entries := []
  output : Value := .null
  outputPath : Value := .null
  executing : Bool := false
  executed : Bool := false
  duration : Nat := 0
  deriving Inhabited

inductive Recorded where
  | nothing
  | latest (reported : Option Reported) (collected : Bool)
  | first (future : FutureId)

structure Completion where
  descriptor : Descriptor
  recorded : Recorded

structure Event where
  kind : String
  tick : Nat
  details : List Datum

inductive LogEntry where
  | compiled (nodes actions : Nat)
  | started
  | resolved (ms : Nat)
  | rejected (fault : Fault)
  | running (name : Datum) (path : Path)
  | completed (name : Datum) (path : Path) (output : Datum) (ms : Nat)
  | discardedResult (name : Datum)
  | discardedFailure (name : Datum) (fault : Fault)
  | lateCompletion (name : Datum)

/-- What a run does, for those who reason about it. The machine writes these and never reads them. -/
inductive Happening where
  /-- The action of a node is called with the args as they are. -/
  | called (node : Head) (args : Entries)
  /-- The call of a node gave back something that is waited for: a future, or a routine that is run
  in place. -/
  | began (node : Head) (body : Option FutureId)
  /-- What the call of a sequential node gave back has ended without a failure. -/
  | ended (node : Head)
  /-- The nested sequence at a place is given a task. -/
  | spawned (place : Path)
  /-- The payload of a node is merged, and the node has executed. -/
  | completed (node : Head) (result : Result) (payload : Entries)
  /-- The branch selected by a node has ended. -/
  | followed (node : Head)
  /-- A node fails by its call, its body, its payload or its output. -/
  | failed (node : Head) (error : Raised)
  /-- The body of a member has failed, and its descriptor, being as it is, kept that from the run. -/
  | unheard (node : Head) (error : Raised) (descriptor : Descriptor)
  /-- The run is settled. -/
  | settled (status : Status)

structure Timer where
  due : Nat
  job : Job

/-- The queue of an event loop. In a turn, the `left` first jobs of the queue are run; jobs that they
add wait for the next turn. -/
structure Agenda where
  loop : Nat := 0
  ready : List Job := []
  left : Nat := 0
  timers : List Timer := []
  /-- Jobs for the main loop that another loop has added meanwhile. -/
  parked : List Job := []
  stopping : Bool := false

/-- What the machine is doing between two jobs, or inside one. -/
inductive Focus where
  | idle
  | enter (task : FutureId) (routine : Routine) (stack : List Frame)
  | leave (task : FutureId) (outcome : Outcome) (stack : List Frame)

structure World where
  heap : Heap := {}
  raisedCount : Nat := 0
  clock : Nat := 0
  agenda : Agenda := {}
  focus : Focus := .idle
  futures : Array Future := #[]
  completions : Array Completion := #[]
  records : Array Record := #[]
  lastRun : Option RunId := none
  nodes : Array NodeState := #[]
  stashed : List (String × Value) := []
  shared : List (String × Raised) := []
  events : Array Event := #[]
  logs : Array LogEntry := #[]
  journal : List (RunId × Nat × Happening) := []

def tickLength : Nat := 125

namespace Status

def isSettled : Status → Bool
  | running => false
  | _ => true

def error? : Status → Option Raised
  | rejected _ e => some e
  | _ => none

def duration : Status → Nat
  | running => 0
  | resolved ms | rejected ms _ => ms

end Status

namespace World

def log (w : World) (e : LogEntry) : World := { w with logs := w.logs.push e }

def emit (w : World) (kind : String) (details : List Datum) : World :=
  { w with events := w.events.push ⟨kind, w.clock, details⟩ }

/-- Lets the outside see a fault that leaves a job of the queue, where nobody takes it. -/
def emitStray (w : World) (f : Fault) : World :=
  w.emit "callback_error" [.text f.className, .text f.message]

def note (w : World) (run : RunId) (h : Happening) : World :=
  { w with journal := (run, w.clock, h) :: w.journal }

/-- Raises a fault, which from then on is told apart from all others. -/
def raise (w : World) (f : Fault) : Raised × World :=
  (⟨w.raisedCount, f⟩, { w with raisedCount := w.raisedCount + 1 })

def elapsed (w : World) (started : Nat) : Nat := (w.clock - started) * tickLength

end World

end Conductor
