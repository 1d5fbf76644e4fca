import Conductor.Machine.Loop

/-!
# Using completions

What becomes of what a use of a descriptor reports, and the other operations of a descriptor. A
sequential descriptor keeps the latest report until it is collected; a concurrent one settles its
future with the first.
-/

namespace Conductor.World

def completion? (w : World) (c : CompletionId) : Option Completion := w.completions[c]?

def modifyCompletion (w : World) (c : CompletionId) (change : Completion → Completion) : World :=
  { w with completions := w.completions.modify c change }

def setRecorded (w : World) (c : CompletionId) (r : Recorded) : World :=
  w.modifyCompletion c fun x => { x with recorded := r }

def modifyDescriptor (w : World) (c : CompletionId) (change : Descriptor → Descriptor) : World :=
  w.modifyCompletion c fun x => { x with descriptor := change x.descriptor }

def addCompletion (w : World) (x : Completion) : World :=
  { w with completions := w.completions.push x }

/-- Adds a descriptor. A concurrent one gets a future of its own. -/
def newCompletion (w : World) (d : Descriptor) : CompletionId × World :=
  let (recorded, w) : Recorded × World := match d.policy with
    | .plain => (.nothing, w)
    | .sequential => (.latest none false, w)
    | .concurrent =>
      let (f, w) := w.newFuture (.plain .report)
      (.first f, w)
  (w.completions.size, w.addCompletion ⟨d, recorded⟩)

def delegate (w : World) (c : CompletionId) (name : String) : Except Fault Unit :=
  match w.completion? c with
  | some completion => completion.descriptor.delegate name
  | none => .ok ()

/-- Whether what was reported counts as present: a result always does. -/
def isPresent (w : World) : Reported → Bool
  | .result _ => true
  | .value v => w.heap.isTruthy v

def isCollected (w : World) (d : Descriptor) (collected : Bool) : Except Fault Bool :=
  (d.book "_collected").map fun
    | some v => w.heap.isTruthy v
    | none => collected

/-- The future in the books of a concurrent descriptor; `method` is what it will be asked for. -/
def futureOf (d : Descriptor) (f : FutureId) (method : String) : Except Fault FutureId :=
  match d.book "_future" with
  | .error fault => .error fault
  | .ok none => .ok f
  | .ok (some v) => .error (.noAttribute v.typeName method)

def record (w : World) (c : CompletionId) (x : Reported) : Except Fault Unit × World :=
  match w.completion? c with
  | none => (.ok (), w)
  | some ⟨_, .nothing⟩ => (.error .abstractCompletion, w)
  | some ⟨d, .latest _ collected⟩ =>
    match w.isCollected d collected with
    | .error f => (.error f, w)
    | .ok true =>
      match d.node with
      | .error f => (.error f, w)
      | .ok node => (.ok (), w.log (.lateCompletion node))
    | .ok false =>
      (.ok (), (w.setRecorded c (.latest (some x) collected)).modifyDescriptor c
        (·.restore "_result"))
  | some ⟨d, .first f⟩ =>
    match futureOf d f "done" with
    | .error fault => (.error fault, w)
    | .ok f => (.ok (), w.settle f (.value (.reported x)))

def recordReport (w : World) (c : CompletionId) : Except Fault Reported → Except Fault Unit × World
  | .ok x => w.record c x
  | .error f => (.error f, w)

/-- Takes the report of a sequential descriptor, which records no more from then on. Without a
report that counts it is the empty result. -/
def collect (w : World) (c : CompletionId) : Except Fault Reported × World :=
  match w.completion? c with
  | some ⟨d, .latest r _⟩ =>
    let w := (w.setRecorded c (.latest r true)).modifyDescriptor c (·.restore "_collected")
    match d.book "_result" with
    | .error f => (.error f, w)
    | .ok v =>
      let reported : Reported := match v with
        | some v => .value v
        | none => r.getD (.value .null)
      (.ok (if w.isPresent reported then reported else .result {}), w)
  | _ => (.ok (.result {}), w)

def isDone (w : World) (c : CompletionId) : Except Fault Bool :=
  match w.completion? c with
  | some ⟨d, .first f⟩ => (futureOf d f "done").map fun f => !w.isPending f
  | _ => .ok false

/-- The future that somebody waits for to get the report of a concurrent descriptor. -/
def awaited (w : World) (c : CompletionId) : Except Fault (Option FutureId) :=
  match w.completion? c with
  | some ⟨d, .first f⟩ =>
    match d.book "_future" with
    | .error fault => .error fault
    | .ok none => .ok (some f)
    | .ok (some v) => .error (.notAwaitable v.typeName)
  | _ => .ok none

/-- Fails a concurrent descriptor that is still pending. -/
def failCompletion (w : World) (c : CompletionId) (e : Raised) : Except Fault World :=
  match w.completion? c with
  | some ⟨d, .first f⟩ =>
    match futureOf d f "done" with
    | .error fault => .error fault
    | .ok f => if w.isPending f then w.failFuture f e else .ok w
  | _ => .ok w

def attributesIn? (w : World) : Value → Option Entries
  | .dict r => some (w.heap.dict r)
  | _ => none

def writeAttribute (w : World) (c : CompletionId) (name v : Value) : Except Fault Unit × World :=
  match name with
  | .atom (.text "__class__") => (.error (.classNotAssignable v.typeName), w)
  | .atom (.text "__weakref__") =>
    (.error (.readOnlyAttribute Policy.plain.name "__weakref__"), w)
  | .atom (.text "__dict__") =>
    match w.attributesIn? v with
    | some entries => (.ok (), w.modifyDescriptor c (·.replaceOwn entries))
    | none => (.error (.attributesNotMapping v.typeName), w)
  | .atom (.text name) => (.ok (), w.modifyDescriptor c (·.write name (some v)))
  | name => (.error (.attributeNameNotText name.typeName), w)

def removeAttribute (w : World) (c : CompletionId) (d : Descriptor) (name : Value) :
    Except Fault Unit × World :=
  match name with
  | .atom (.text "__class__") => (.error .classNotDeletable, w)
  | .atom (.text "__weakref__") =>
    (.error (.readOnlyAttribute Policy.plain.name "__weakref__"), w)
  | .atom (.text "__dict__") => (.ok (), w.modifyDescriptor c (·.replaceOwn []))
  | .atom (.text name) =>
    if (d.own? name).isSome then (.ok (), w.modifyDescriptor c (·.write name none))
    else (.error (.noAttribute d.policy.name name), w)
  | name => (.error (.attributeNameNotText name.typeName), w)

/-- Fetches an attribute without asking what answers for missing ones. -/
def fetchAttribute (d : Descriptor) : Value → Except Fault Unit
  | .atom (.text name) =>
    if (d.member? name).isSome then .ok () else .error (.noAttribute d.policy.name name)
  | name => .error (.attributeNameNotText name.typeName)

/-- The bound of the version numbers that the taking apart of an object is asked for. -/
def versionLimit : Int := 0x80000000

/-- Asks for an object to be taken apart, in the way with a version number. -/
def takeApart (d : Descriptor) (version : Value) : Except Fault Unit :=
  match version.place? with
  | none => .error (.notInteger version.typeName)
  | some n =>
    if -versionLimit ≤ n && n < versionLimit then d.delegate "__getstate__"
    else .error .integerTooLarge

/-- Writes a descriptor out in a form; there is only the empty form. -/
def formatted (d : Descriptor) : Value → Except Fault Unit
  | .atom (.text "") => .ok ()
  | .atom (.text _) => .error (.formatUnknown d.policy.name)
  | form => .error (.formatNotText form.typeName)

def callInherited (w : World) (c : CompletionId) (d : Descriptor) (name : String) (i : Inherited)
    (arguments : List Value) : Except Fault Unit × World :=
  match i.check d.policy.name name arguments with
  | .error f => (.error f, w)
  | .ok () =>
    match name, arguments with
    | "__setattr__", [name, v] => w.writeAttribute c name v
    | "__delattr__", [name] => w.removeAttribute c d name
    | "__getattribute__", [name] => (fetchAttribute d name, w)
    | "__reduce__", [] => (d.delegate "__getstate__", w)
    | "__reduce_ex__", [version] => (takeApart d version, w)
    | "__format__", [form] => (formatted d form, w)
    | _, _ => (.ok (), w)

def attributeFault (w : World) (v : Value) (name : String) : Fault :=
  match v with
  | .completion _ c =>
    match w.completion? c with
    | some completion => completion.descriptor.missingAttribute w.heap name
    | none => .hiddenAttribute name
  | v => .noAttribute v.typeName name

def answerMissing (w : World) (d : Descriptor) : Value → Fault
  | .atom (.text name) => d.missingAttribute w.heap name
  | .atom (.bytes _) => .prefixNotBytes
  | name => w.attributeFault name "startswith"

/-- Makes a descriptor anew for a node, which no value is: the books are opened before that shows. -/
def reopen (w : World) (c : CompletionId) (arguments : List Value) : Except Fault Unit × World :=
  let node := arguments[0]?.getD .null
  let output := arguments[1]?.getD .null
  (.error (w.attributeFault node "output_names"),
    w.modifyDescriptor c fun d => (d.write "_node" (some node)).write "_default_output" (some output))

/-- Asks a concurrent descriptor to fail with a value, which is never a failure. -/
def failWith (w : World) (c : CompletionId) : Except Fault Unit :=
  match w.isDone c with
  | .error f => .error f
  | .ok true => .ok ()
  | .ok false => .error .notException

def callMethod (w : World) (c : CompletionId) (d : Descriptor) (m : Method)
    (arguments : List Value) : Except Fault Unit × World :=
  match d.report? arguments m with
  | some report => w.recordReport c report
  | none =>
    match m.check d.policy arguments.length with
    | .error f => (.error f, w)
    | .ok () =>
      match m with
      | .missing => (.error (w.answerMissing d (arguments[0]?.getD .null)), w)
      | .remake => w.reopen c arguments
      | .collect =>
        let (r, w) := w.collect c
        (r.map fun _ => (), w)
      | .isDone => ((w.isDone c).map fun _ => (), w)
      | .fail => (w.failWith c, w)
      | _ => (.ok (), w)

def recordedType : Recorded → String
  | .latest (some (.result _)) _ => "CompletionResult"
  | .latest (some (.value v)) _ => v.typeName
  | _ => "NoneType"

def bookType (completion : Completion) (name : String) : String :=
  match name with
  | "_node" => "ActionNode"
  | "_outputs" => "tuple"
  | "_collected" => "bool"
  | "_future" => "_asyncio.Future"
  | "_default_output" => completion.descriptor.defaultOutput.typeName
  | _ => recordedType completion.recorded

def callMember (w : World) (c : CompletionId) (m : Member) (arguments : List Value) :
    Except Fault Unit × World :=
  match w.completion? c with
  | none => (.ok (), w)
  | some completion =>
    let d := completion.descriptor
    match m with
    | .value v => (.error (.notCallable v.typeName), w)
    | .book name => (.error (.notCallable (bookType completion name)), w)
    | .declared output => w.recordReport c (d.callDeclared output arguments)
    | .method m => w.callMethod c d m arguments
    | .inherited name i => w.callInherited c d name i arguments
    | .kind =>
      (match Method.remake.check d.policy arguments.length with
        | .error f => .error f
        | .ok () => .error (w.attributeFault (arguments[0]?.getD .null) "output_names"), w)

def callCompletion (w : World) (c : CompletionId) (arguments : List Value) :
    Except Fault Unit × World :=
  match w.completion? c with
  | none => (.ok (), w)
  | some completion => w.recordReport c (completion.descriptor.call arguments)

/-- The result that was reported. A value that is no result has none of its parts; `part` is the one
that is asked for first. -/
def resultOf (w : World) (part : String) : Reported → Except Fault Result
  | .result r => .ok r
  | .value v => .error (w.attributeFault v part)

end Conductor.World
