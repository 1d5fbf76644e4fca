import Conductor.Completion.Member
import Conductor.Graph.Tree

/-!
# Completion descriptors

An action reports what it did through its descriptor: a payload, and perhaps the output with which
the run should go on. A use of a descriptor either denotes one result or fails and leaves nothing
behind. A leading text names an output; a declared output is a method of its own and comes before
every method of the descriptor with the same name, unless it starts with an underscore.

The attributes of a descriptor can be written and removed from outside. What was written comes
before what the descriptor was made with, also where the descriptor asks for its own books.
-/

namespace Conductor

/-- What an action reported: an output, null if none, and a payload. -/
structure Result where
  path : Value := .null
  payload : Value := .null
  named : Bool := false

/-- What a descriptor is given to record: a result, or some value as it is. -/
inductive Reported where
  | result (r : Result)
  | value (v : Value)

/-- A descriptor of one call of a node. `written` are the attributes written from outside, with
`none` for one that was removed. -/
structure Descriptor where
  nodeName : Datum
  declared : List Key
  defaultOutput : Value
  policy : Policy
  written : List (String × Option Value) := []

namespace Descriptor

def write (d : Descriptor) (name : String) (v : Option Value) : Descriptor :=
  { d with written := (name, v) :: d.written.filter (·.1 ≠ name) }

/-- Takes back what was written under a name. -/
def restore (d : Descriptor) (name : String) : Descriptor :=
  { d with written := d.written.filter (·.1 ≠ name) }

def isShortcut (d : Descriptor) (name : String) : Bool :=
  !name.startsWith "_" && d.declared.any fun k => k.text? = some name

/-- The names of the attributes in which a descriptor with a policy keeps its books. -/
def bookNames : Policy → List String
  | .plain => ["_node", "_default_output", "_outputs"]
  | .sequential => ["_node", "_default_output", "_outputs", "_result", "_collected"]
  | .concurrent => ["_node", "_default_output", "_outputs", "_future"]

def ownNames (d : Descriptor) : List String :=
  bookNames d.policy ++ (d.declared.filterMap Key.text?).filter (!·.startsWith "_")

def own? (d : Descriptor) (name : String) : Option Member :=
  match d.written.lookup name with
  | some (some v) => some (.value v)
  | some none => none
  | none =>
    if d.isShortcut name then some (.declared name)
    else if name ∈ bookNames d.policy then some (.book name)
    else none

def replaceOwn (d : Descriptor) (entries : List (Key × Value)) : Descriptor :=
  let new := entries.filterMap fun (k, v) => k.text?.map fun name => (name, some v)
  { d with written := new ++ d.ownNames.map fun name => (name, none) }

/-- What stands in one of the books: what was written there, or nothing if it is as it was made. -/
def book (d : Descriptor) (name : String) : Except Fault (Option Value) :=
  match d.written.lookup name with
  | some (some v) => .ok (some v)
  | some none => .error (.hiddenAttribute name)
  | none => .ok none

def node (d : Descriptor) : Except Fault Datum :=
  match d.book "_node" with
  | .error f => .error f
  | .ok (some v) => .error (.noAttribute v.typeName "name")
  | .ok none => .ok d.nodeName

def unnamedOutput (d : Descriptor) : Except Fault Value :=
  (d.book "_default_output").map fun v => v.getD d.defaultOutput

def texts (position : Nat) : List Value → Except Fault (List String)
  | [] => .ok []
  | .atom (.text s) :: rest => (texts (position + 1) rest).map (s :: ·)
  | v :: _ => .error (.joinNotText position v.typeName)

def outputTexts (d : Descriptor) (h : Heap) : Except Fault (List String) :=
  match d.book "_outputs" with
  | .error f => .error f
  | .ok none => texts 0 (Value.ofKeys d.declared)
  | .ok (some v) =>
    match h.items? v with
    | .ok items => texts 0 items
    | .error _ => .error .joinNotIterable

/-- The fault of asking for an attribute that is missing. Telling the node and listing the declared
outputs may fail in turn. -/
def missingAttribute (d : Descriptor) (h : Heap) (name : String) : Fault :=
  if name.startsWith "_" then .hiddenAttribute name
  else match d.node, d.outputTexts h with
    | .error f, _ => f
    | .ok _, .error f => f
    | .ok node, .ok outputs => .undeclaredShortcut node name outputs

def member? (d : Descriptor) (name : String) : Option Member :=
  if name = "__class__" then some .kind
  else match Inherited.fixed.lookup name with
    | some i => some (.inherited name i)
    | none =>
      match d.own? name with
      | some m => some m
      | none =>
        match Method.named? d.policy name with
        | some m => some (.method m)
        | none => (Inherited.members.lookup name).map (.inherited name)

def member (d : Descriptor) (h : Heap) (name : String) : Except Fault Member :=
  match d.member? name with
  | some m => .ok m
  | none => .error (d.missingAttribute h name)

def hasMember (d : Descriptor) (h : Heap) (name : String) : Except Fault Bool :=
  match d.member h name with
  | .ok _ => .ok true
  | .error f => if f.className = "AttributeError" then .ok false else .error f

/-- Whether the descriptor still finds its own method under a name. -/
def delegate (d : Descriptor) (name : String) : Except Fault Unit :=
  match d.written.lookup name with
  | some (some v) => .error (.notCallable v.typeName)
  | _ => .ok ()

/-- Reports something through the method that records. -/
def emit (d : Descriptor) (x : Reported) : Except Fault Reported :=
  (d.delegate "_record").map fun _ => x

def emitDefault (d : Descriptor) (arguments : List Value) : Except Fault Reported := do
  Method.emitDefault.check d.policy arguments.length
  let output ← d.unnamedOutput
  d.emit (.result ⟨output, arguments[0]?.getD .null, false⟩)

def emitNamed (d : Descriptor) (arguments : List Value) : Except Fault Reported := do
  Method.emitNamed.check d.policy arguments.length
  d.emit (.result ⟨arguments[0]?.getD .null, arguments[1]?.getD .null, true⟩)

def isText : Value → Bool
  | .atom (.text _) => true
  | _ => false

def call (d : Descriptor) (arguments : List Value) : Except Fault Reported :=
  match arguments with
  | v :: _ =>
    if isText v then do
      d.delegate "_emit_named"
      d.emitNamed arguments
    else do
      d.delegate "_emit_default"
      d.emitDefault arguments
  | [] => do
    d.delegate "_emit_default"
    d.emitDefault []

/-- What calling a method reports; `none` for a method that reports nothing. -/
def report? (d : Descriptor) (arguments : List Value) : Method → Option (Except Fault Reported)
  | .call => some (d.call arguments)
  | .complete => some do
    Method.complete.check d.policy arguments.length
    d.delegate "_emit_default"
    d.emitDefault [arguments[0]?.getD .null]
  | .output => some do
    Method.output.check d.policy arguments.length
    d.delegate "_emit_named"
    d.emitNamed [arguments[0]?.getD .null, arguments[1]?.getD .null]
  | .emitDefault => some (d.emitDefault arguments)
  | .emitNamed => some (d.emitNamed arguments)
  | .resolve => some do
    Method.resolve.check d.policy arguments.length
    d.emit (.value (arguments[0]?.getD .null))
  | .record => some do
    Method.record.check d.policy arguments.length
    return .value (arguments[0]?.getD .null)
  | .missing | .remake | .collect | .isDone | .wait | .fail => none

def callDeclared (d : Descriptor) (output : String) (arguments : List Value) :
    Except Fault Reported :=
  d.emitNamed (.text output :: arguments)

end Descriptor

end Conductor
