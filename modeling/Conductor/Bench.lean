import Conductor.Session
import Conductor.Threshold

/-!
# Parts on their own

Registries, completion descriptors and configurations can be worked with apart from a run. Each has
its own small language of steps, and a step answers or fails.
-/

namespace Conductor

inductive RegistryStep where
  | register (name : String)
  | nameOf (index : Template)
  | names
  | size
  /-- Changing the lists that were handed out, which are copies. -/
  | changeCopies

inductive RegistryAnswer where
  | nothing
  | index (n : Nat)
  | name (d : Datum)
  | names (ds : List Datum)
  | sizes (n m : Nat)
  | failed (f : Fault)

namespace Registry

def perform (r : Registry) (w : Workshop) : RegistryStep → RegistryAnswer × Registry × Workshop
  | .register name =>
    match w.action name with
    | (.error f, w) => (.failed f, r, w)
    | (.ok made, w) =>
      let (index, r) := r.register (Workshop.objectOf made)
      (.index index, r, w)
  | .nameOf index =>
    match index.make w.heap with
    | (.error f, heap) => (.failed f, r, { w with heap })
    | (.ok i, heap) =>
      let w := { w with heap }
      match r.nameOf i with
      | .ok d => (.name d, r, w)
      | .error f => (.failed f, r, w)
  | .names => (.names r.names, r, w)
  | .size => (.sizes r.size r.items.length, r, w)
  | .changeCopies => (.nothing, r, w)

def performAll (r : Registry) (w : Workshop) : List RegistryStep → List RegistryAnswer
  | [] => []
  | s :: ss =>
    let (a, r, w) := r.perform w s
    a :: performAll r w ss

end Registry

def acceptAll (w : Workshop) : List String → List (Except Fault Bool)
  | [] => []
  | name :: names =>
    match w.action name with
    | (.error f, w) => .error f :: acceptAll w names
    | (.ok made, w) => .ok made.action.acceptsCompletion :: acceptAll w names

inductive CompletionStep where
  | call (arguments : List Template)
  | attribute (name : String) (arguments : List Template)
  | resolve (path payload : Template) (named : Bool)
  | has (name : String)
  | collect
  | fail (name : String) (message : Option String)
  | isDone
  | wait

inductive CompletionAnswer where
  | nothing
  | flag (b : Bool)
  | result (path payload : Datum) (named : Bool)
  | pending
  | failed (f : Fault)

namespace World

def reportAnswer (w : World) (x : Reported) : CompletionAnswer :=
  match w.resultOf "path" x with
  | .ok r => .result (w.heap.read r.path) (w.heap.read r.payload) r.named
  | .error f => .failed f

def plainAnswer : Except Fault Unit × World → CompletionAnswer × World
  | (.ok (), w) => (.nothing, w)
  | (.error f, w) => (.failed f, w)

/-- Evaluates templates that stand in no script, and goes on with their values. -/
def withMade (w : World) (ts : List Template)
    (next : World → List Value → CompletionAnswer × World) : CompletionAnswer × World :=
  match Template.makeList ts w.heap with
  | (.error f, heap) => (.failed f, { w with heap })
  | (.ok vs, heap) => next { w with heap } vs

def withMethod (w : World) (d : Descriptor) (name : String)
    (next : World → CompletionAnswer × World) : CompletionAnswer × World :=
  match d.member w.heap name with
  | .error f => (.failed f, w)
  | .ok (.value v) => (.failed (.notCallable v.typeName), w)
  | .ok _ => next w

def waitAnswer (w : World) (f : FutureId) : CompletionAnswer :=
  match w.settlement? f with
  | some (.value (.reported x)) => w.reportAnswer x
  | some (.failed e) => .failed e.fault
  | some (.cancelled _) => .failed .cancelled
  | some (.value _) => .nothing
  | none => .pending

def performCompletion (w : World) (c : CompletionId) (d : Descriptor) :
    CompletionStep → CompletionAnswer × World
  | .call arguments => w.withMade arguments fun w vs => plainAnswer (w.callCompletion c vs)
  | .attribute name arguments =>
    match d.member w.heap name with
    | .error f => (.failed f, w)
    | .ok m => w.withMade arguments fun w vs => plainAnswer (w.callMember c m vs)
  | .resolve path payload named => w.withMethod d "_resolve" fun w =>
      w.withMade [path, payload] fun w vs =>
        plainAnswer (w.recordReport c (d.emit
          (.result ⟨vs[0]?.getD .null, vs[1]?.getD .null, named⟩)))
  | .has name =>
    match d.hasMember w.heap name with
    | .ok b => (.flag b, w)
    | .error f => (.failed f, w)
  | .collect => w.withMethod d "_collect" fun w =>
      match w.collect c with
      | (.ok x, w) => (w.reportAnswer x, w)
      | (.error f, w) => (.failed f, w)
  | .fail name message => w.withMethod d "_fail" fun w =>
      match Fault.ofRaise name message with
      | .error f => (.failed f, w)
      | .ok fault =>
        let (e, w) := w.raise fault
        match w.failCompletion c e with
        | .ok w => (.nothing, w)
        | .error f => (.failed f, w)
  | .isDone => w.withMethod d "_is_done" fun w =>
      match w.isDone c with
      | .ok b => (.flag b, w)
      | .error f => (.failed f, w)
  | .wait => w.withMethod d "_is_done" fun w =>
      match w.isDone c with
      | .error f => (.failed f, w)
      | .ok false => (.pending, w)
      | .ok true => w.withMethod d "_wait" fun w =>
          match w.awaited c with
          | .ok (some f) => (w.waitAnswer f, w)
          | .ok none => (.nothing, w)
          | .error f => (.failed f, w)

def performCompletions (w : World) (c : CompletionId) :
    List CompletionStep → List CompletionAnswer × World
  | [] => ([], w)
  | s :: ss =>
    match w.completion? c with
    | none => ([], w)
    | some completion =>
      let (a, w) := w.performCompletion c completion.descriptor s
      let (as_, w) := w.performCompletions c ss
      (a :: as_, w)

/-- Makes a descriptor of a node with given outputs and carries out steps on it. -/
def onCompletion (w : World) (policy : Policy) (name : Template) (outputs : List Template)
    (defaultOutput : Template) (steps : List CompletionStep) :
    Except Fault (List CompletionAnswer × World) := do
  let (made, heap) := Template.makeList (name :: defaultOutput :: outputs) w.heap
  let w := { w with heap }
  match ← made with
  | name :: defaultOutput :: outputs =>
    let keys ← Template.keysOf outputs
    let declared := Template.distinct keys
    let d : Descriptor :=
      { nodeName := w.heap.read name, declared, defaultOutput, policy }
    let (c, w) := w.newCompletion d
    return w.performCompletions c steps
  | _ => return ([], w)

end World

/-- One step of merging: whether it went well, and what the target then is. -/
structure MergeStep where
  fault : Option Fault
  target : Datum
  keys : List Datum

namespace Heap

def mergeSource (h : Heap) (target : Value) (source : Template) : Except Fault Unit × Heap :=
  match source.make h with
  | (.error f, h) => (.error f, h)
  | (.ok v, h) => h.mergeInto target v

/-- Merges written sources into a target one after the other. A target that cannot be walked through
cannot be told of. -/
def mergeAll (h : Heap) (target : Value) : List Template → Except Fault (List MergeStep)
  | [] => .ok []
  | source :: sources => do
    let (done, h) := h.mergeSource target source
    let items ← h.items? target
    let fault := match done with
      | .ok () => none
      | .error f => some f
    let rest ← h.mergeAll target sources
    return ⟨fault, h.read target, items.map h.read⟩ :: rest

/-- Reduces written values to what JSON can hold, each on its own. -/
def reduceAll (h : Heap) : List Template → List (Except Fault Datum)
  | [] => []
  | t :: ts =>
    match t.make h with
    | (.error f, h) => .error f :: h.reduceAll ts
    | (.ok v, h) => .ok (h.read v).toJsonable :: h.reduceAll ts

def mergeWritten (h : Heap) (target : Template) (sources : List Template) :
    Except Fault (List MergeStep) := do
  let (made, h) := target.make h
  h.mergeAll (← made) sources

end Heap

inductive ConfigurationStep where
  | environment (env : Environment)
  | load
  | get
  | reset
  | execution
  | configure (explicit : Option (Bool × Template))

inductive ConfigurationAnswer where
  | nothing
  | configuration (c : Configuration) (cached : Option Bool)
  | settings (s : Settings)
  | threshold (t : Threshold)
  | failed (f : Fault)

namespace ConfigurationStore

/-- Carries out a step. `known` tells whether the kept configuration was answered before. -/
def perform (s : ConfigurationStore) (known : Bool) :
    ConfigurationStep → ConfigurationAnswer × ConfigurationStore × Bool
  | .environment env => (.nothing, s.setEnvironment env, known)
  | .load => (.configuration s.environment.configuration none, s, known)
  | .get =>
    let cached := known && s.loaded.isSome
    let (c, s) := s.get
    (.configuration c (some cached), s, true)
  | .reset => (.nothing, s.reset, false)
  | .execution =>
    let (c, s) := s.get
    (.settings c.execution, s, known)
  | .configure (some (debug, logLevel)) =>
    match Threshold.ofTemplate s.imprint debug logLevel with
    | .ok t => (.threshold t, s, known)
    | .error f => (.failed f, s, known)
  | .configure none =>
    let (c, s) := s.get
    (.threshold (.ofConfiguration s.imprint c), s, known)

def performAll (s : ConfigurationStore) (known : Bool) :
    List ConfigurationStep → List ConfigurationAnswer
  | [] => []
  | step :: steps =>
    let (a, s, known) := s.perform known step
    a :: performAll s known steps

end ConfigurationStore

end Conductor
