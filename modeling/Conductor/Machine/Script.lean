import Conductor.Machine.Completions

/-!
# Running scripts

A script runs without interruption until it ends, fails, returns, or has to wait. A script that is
called rather than awaited cannot wait.
-/

namespace Conductor

/-- What a call gave back: something that nobody waits for, a routine that has not begun, or a
future. -/
inductive Returned where
  | plain (type : String)
  | routine (scope : Scope) (steps : List Step)
  | future (f : FutureId)

inductive Pause where
  | sleep (ticks : Nat)
  | run (args : Value)

inductive Halt where
  | finished
  | returned (r : Returned)
  | failed (e : Raised)
  | paused (what : Pause) (rest : Remainder)

namespace Halt

/-- The same halt with more steps to follow a pause. -/
def before (rest : List Step) : Halt → Halt
  | paused what own => paused what (own.before rest)
  | h => h

/-- The halt of a script that halts so in its innermost attempt. -/
def within (outer : List (List Step)) (rest : List Step) : Halt → Halt
  | paused what own => paused what (own.within outer rest)
  | h => h

end Halt

inductive Attribute where
  | member (c : CompletionId) (m : Member)
  /-- What the store is there for. -/
  | commit
  | plain (v : Value) (m : ValueMember)

namespace World

def failNow (w : World) (f : Fault) : Halt × World :=
  let (e, w) := w.raise f
  (.failed e, w)

/-- Ends a step with what an operation left, or with its fault. -/
def finishWith : Except Fault Unit × World → Halt × World
  | (.ok (), w) => (.finished, w)
  | (.error f, w) => w.failNow f

def finishHeap (w : World) : Except Fault Heap → Halt × World
  | .ok heap => (.finished, { w with heap })
  | .error f => w.failNow f

/-- The attribute of what a script works with, or the fault of asking for it. -/
def attributeOf (w : World) (v : Value) (name : String) : Except Fault Attribute :=
  match v with
  | .completion _ c =>
    match w.completion? c with
    | some completion => (completion.descriptor.member w.heap name).map (.member c)
    | none => .error (.hiddenAttribute name)
  | v =>
    if v matches .store && name = "commit" then .ok .commit
    else match v.member? name with
      | some m => .ok (.plain v m)
      | none => .error (.noAttribute v.typeName name)

def commit (w : World) (type v : Value) : World :=
  w.emit "commit" [w.heap.read type, w.heap.read v]

def commitProfile : Profile := ⟨"Store.commit", ["type", "value"], 0⟩

def callAttribute (w : World) (a : Attribute) (arguments : List Value) :
    Except Fault Unit × World :=
  match a with
  | .member c m => w.callMember c m arguments
  | .commit =>
    match commitProfile.check arguments.length with
    | .error f => (.error f, w)
    | .ok () => (.ok (), w.commit (arguments[0]?.getD .null) (arguments[1]?.getD .null))
  | .plain v m =>
    let (r, heap) := w.heap.callMember v arguments m
    (r, { w with heap })

def callValue (w : World) (v : Value) (arguments : List Value) : Except Fault Unit × World :=
  match v with
  | .completion _ c => w.callCompletion c arguments
  | v => (.error (.notCallable v.typeName), w)

/-- The fault of looking something up, with a fallback, in what is no mapping. -/
def lookupFault (w : World) (v : Value) : Fault :=
  match w.attributeOf v "get" with
  | .error f => f
  | .ok a =>
    match (w.callAttribute a [.null, .null]).1 with
    | .error f => f
    | .ok () => .noAttribute v.typeName "get"

def surroundings (w : World) (scope : Scope) : Template.Surroundings :=
  ⟨scope.args, match scope.args with
    | .dict _ => .noAttribute scope.args.typeName "get"
    | v => w.lookupFault v⟩

def eval (w : World) (scope : Scope) (t : Template) : Except Fault Value × World :=
  let (v, h) := t.eval (w.surroundings scope) w.heap
  (v, { w with heap := h })

def evalList (w : World) (scope : Scope) (ts : List Template) : Except Fault (List Value) × World :=
  let (vs, h) := Template.evalList (w.surroundings scope) ts w.heap
  (vs, { w with heap := h })

/-- The raised fault kept under a slot, made on first use; one that cannot be made is not kept. -/
def sharedFault (w : World) (slot name : String) (message : Option String) : Raised × World :=
  match w.shared.lookup slot with
  | some e => (e, w)
  | none =>
    match Fault.ofRaise name message with
    | .error f => w.raise f
    | .ok f =>
      let (e, w) := w.raise f
      (e, { w with shared := (slot, e) :: w.shared })

/-- The fault that raising a class leads to, be it that it cannot be made. -/
def raisedFault (name : String) (message : Option String) : Fault :=
  match Fault.ofRaise name message with
  | .ok f => f
  | .error f => f

def returnFuture (w : World) (ticks : Option Nat) (how : FutureEnd) : Halt × World :=
  let (f, w) := w.newFuture (.plain .timed)
  match ticks with
  | some n => (.returned (.future f), w.schedule n (.settle f how))
  | none =>
    match w.reachTime f how with
    | .ok w => (.returned (.future f), w)
    | .error fault => w.failNow fault

def withValues (w : World) (scope : Scope) (ts : List Template)
    (next : World → List Value → Halt × World) : Halt × World :=
  match w.evalList scope ts with
  | (.error f, w) => w.failNow f
  | (.ok vs, w) => next w vs

def withValue (w : World) (scope : Scope) (t : Template)
    (next : World → Value → Halt × World) : Halt × World :=
  match w.eval scope t with
  | (.error f, w) => w.failNow f
  | (.ok v, w) => next w v

def withResult (w : World) (r : Except Fault Value) (next : Value → Halt × World) : Halt × World :=
  match r with
  | .error f => w.failNow f
  | .ok v => next v

/-- Looks a key up with an attribute, and goes on with what is found: nothing, unless it is a mapping
that is asked. -/
def withFound (w : World) (container : Value) (a : Attribute) (k : Value)
    (next : World → Value → Halt × World) : Halt × World :=
  match w.heap.mapping? container with
  | some entries =>
    match Template.lookUp entries k .null with
    | .error f => w.failNow f
    | .ok v => next w v
  | none =>
    match w.callAttribute a [k] with
    | (.error f, w) => w.failNow f
    | (.ok (), w) => next w .null

def emitCaught (w : World) (e : Raised) : World :=
  w.emit "caught" [.text e.fault.className, .text e.fault.message]

/-- The halt of an attempt: an ordinary failure ends there. -/
def caught : Halt × World → Halt × World
  | (.failed e, w) => if e.fault.isOrdinary then (.finished, w.emitCaught e) else (.failed e, w)
  | r => r

mutual

def runStep (scope : Scope) : Step → World → Halt × World
  | .log text, w => w.withValue scope text fun w v =>
      (.finished, w.emit "log" [w.heap.read v])
  | .see, w => (.finished, w.emit "see" [w.heap.read scope.args])
  | .get key, w => w.withValue scope key fun w k =>
      w.withResult (w.heap.item scope.args k) fun v =>
        (.finished, w.emit "get" [w.heap.read k, w.heap.read v])
  | .commit type key, w =>
      match w.attributeOf scope.store "commit" with
      | .error f => w.failNow f
      | .ok a => w.withValue scope type fun w t => w.withValue scope key fun w k =>
          w.withResult (w.heap.item scope.args k) fun v => finishWith (w.callAttribute a [t, v])
  | .set key value, w => w.withValue scope value fun w v => w.withValue scope key fun w k =>
      w.finishHeap (w.heap.setItem scope.args k v)
  | .delete key, w => w.withValue scope key fun w k =>
      w.finishHeap (w.heap.deleteItem scope.args k)
  | .append key value, w => w.withValue scope key fun w k =>
      w.withResult (w.heap.item scope.args k) fun target =>
        match w.attributeOf target "append" with
        | .error f => w.failNow f
        | .ok a => w.withValue scope value fun w v => finishWith (w.callAttribute a [v])
  | .call arguments, w => w.withValues scope arguments fun w vs =>
      finishWith (w.callValue scope.completion vs)
  | .attribute name arguments, w =>
      match w.attributeOf scope.completion name with
      | .error f => w.failNow f
      | .ok a => w.withValues scope arguments fun w vs => finishWith (w.callAttribute a vs)
  | .stash slot, w =>
      (.finished, { w with stashed := (slot, scope.completion) :: w.stashed })
  | .use slot arguments, w =>
      match w.stashed.lookup slot with
      | none => w.failNow (.missingKey (.text slot))
      | some v => w.withValues scope arguments fun w vs => finishWith (w.callValue v vs)
  | .raise name message, w => w.failNow (raisedFault name message)
  | .raiseShared slot name message, w =>
      let (e, w) := w.sharedFault slot name message
      (.failed e, w)
  | .later ticks steps, w => (.finished, w.schedule ticks (.callback scope steps))
  | .soon steps, w => (.finished, w.post w.agenda.loop (.callback scope steps))
  | .attempt steps, w =>
      let (h, w) := caught (runSteps scope steps w)
      (h.within [] [], w)
  | .choose key value yes no, w =>
      match w.attributeOf scope.args "get" with
      | .error f => w.failNow f
      | .ok a => w.withValue scope key fun w k => w.withFound scope.args a k fun w found =>
          w.withValue scope value fun w v =>
            if (w.heap.read found).equals (w.heap.read v) then runSteps scope yes w
            else runSteps scope no w
  | .sleep ticks, w => (.paused (.sleep ticks) ⟨[], []⟩, w)
  | .run args, w => w.withValue scope args fun w v => (.paused (.run v) ⟨[], []⟩, w)
  | .finish result, w => w.withValue scope result fun w v =>
      (.returned (.plain v.typeName), w)
  | .finishRoutine steps, w => (.returned (.routine scope steps), w)
  | .finishFuture ticks how, w => w.returnFuture ticks how

def runSteps (scope : Scope) : List Step → World → Halt × World
  | [], w => (.finished, w)
  | s :: rest, w =>
    match runStep scope s w with
    | (.finished, w) => runSteps scope rest w
    | (h, w) => (h.before rest, w)

end

/-- Runs what is left of a script, `rest` after the attempts that are open. -/
def runFrom (scope : Scope) (rest : List Step) : List (List Step) → World → Halt × World
  | [], w => runSteps scope rest w
  | steps :: outer, w =>
    match caught (runSteps scope steps w) with
    | (.finished, w) => runFrom scope rest outer w
    | (h, w) => (h.within outer rest, w)

def runRemainder (scope : Scope) (r : Remainder) (w : World) : Halt × World :=
  runFrom scope r.steps r.attempts w

def returnedType : Returned → String
  | .plain type => type
  | .routine _ _ => "coroutine"
  | .future _ => "_asyncio.Future"

/-- What a constructor makes of what its body gave back: anything but nothing is a fault. -/
def constructed (w : World) (type : String) (r : Except Raised Returned) :
    Except Raised Returned × World :=
  match r with
  | .ok (.plain "NoneType") => (.ok (.plain type), w)
  | .ok r =>
    let (e, w) := w.raise (.initResult (returnedType r))
    (.error e, w)
  | .error e => (.error e, w)

/-- Calls a callable. A generator's body does not begin, nor does that of an asynchronous function;
the body of any other function runs at once. -/
def invoke (w : World) (a : Action) (arguments : List Value) : Except Raised Returned × World :=
  match a.prepare arguments [] with
  | .error f =>
    let (e, w) := w.raise f
    (.error e, w)
  | .ok ⟨f, scope⟩ =>
    let called : Except Raised Returned × World :=
      if f.packaging = .generator then (.ok (.plain "generator"), w)
      else if f.isAsync then (.ok (.routine scope f.steps), w)
      else match runSteps scope f.steps w with
        | (.failed e, w) => (.error e, w)
        | (.returned r, w) => (.ok r, w)
        | (_, w) => (.ok (.plain "NoneType"), w)
    if f.packaging = .constructor then called.2.constructed f.label called.1 else called

end World

end Conductor
