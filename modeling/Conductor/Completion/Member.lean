import Conductor.Value.Method

/-!
# Members of completion descriptors

What the attributes of a descriptor are, apart from the outputs it declares: its methods with their
parameters, what it inherits from every object, and the attributes in which it keeps its books.
-/

namespace Conductor

inductive Method where
  | call
  | complete
  | output
  | emitDefault
  | emitNamed
  | resolve
  | record
  /-- What answers for an attribute that is missing. -/
  | missing
  | remake
  | collect
  | isDone
  | wait
  | fail
  deriving DecidableEq, Repr

/-- What a method takes: its full name, its required parameters, and how many it takes beyond. -/
structure Profile where
  name : String
  required : List String
  optional : Nat := 0

namespace Profile

/-- Whether a call with `given` arguments fits. The object of a method counts as an argument. -/
def check (p : Profile) (given : Nat) : Except Fault Unit :=
  let least := p.required.length
  let most := least + p.optional
  if given < least then .error (.arity p.name (.missing true (p.required.drop given)))
  else if most < given then .error (.arity p.name (.tooMany (least + 1) (most + 1) (given + 1) 0))
  else .ok ()

end Profile

namespace Method

/-- What a method takes on a descriptor with a policy; `none` if it takes anything. -/
def profile (policy : Policy) : Method → Option Profile
  | call => none
  | complete => some ⟨"Completion.complete", [], 1⟩
  | output => some ⟨"Completion.output", ["name"], 1⟩
  | emitDefault => some ⟨"Completion._emit_default", [], 1⟩
  | emitNamed => some ⟨"Completion._emit_named", ["name"], 1⟩
  | resolve => some ⟨"Completion._resolve", ["result"], 0⟩
  | record => some ⟨policy.name ++ "._record", ["result"], 0⟩
  | missing => some ⟨"Completion.__getattr__", ["name"], 0⟩
  | remake =>
    some ⟨policy.name ++ ".__init__", ["node"], if policy = .concurrent then 2 else 1⟩
  | collect => some ⟨"SyncCompletion._collect", [], 0⟩
  | isDone => some ⟨"AsyncCompletion._is_done", [], 0⟩
  | wait => some ⟨"AsyncCompletion._wait", [], 0⟩
  | fail => some ⟨"AsyncCompletion._fail", ["exc"], 0⟩

/-- Whether a call of a method with `given` arguments fits. -/
def check (policy : Policy) (m : Method) (given : Nat) : Except Fault Unit :=
  match m.profile policy with
  | some p => p.check given
  | none => .ok ()

def common : List (String × Method) := [
  ("__call__", call), ("complete", complete), ("output", output),
  ("_emit_default", emitDefault), ("_emit_named", emitNamed), ("_resolve", resolve),
  ("_record", record), ("__getattr__", missing), ("__init__", remake)]

def ofPolicy : Policy → List (String × Method)
  | .plain => common
  | .sequential => common ++ [("_collect", collect)]
  | .concurrent => common ++ [("_is_done", isDone), ("_wait", wait), ("_fail", fail)]

def named? (policy : Policy) (name : String) : Option Method := (ofPolicy policy).lookup name

end Method

inductive Member where
  /-- A value written from outside. -/
  | value (v : Value)
  /-- One of the attributes in which the descriptor keeps its books. -/
  | book (name : String)
  /-- The shortcut of a declared output. -/
  | declared (output : String)
  | method (m : Method)
  | inherited (name : String) (i : Inherited)
  /-- The kind of descriptor it is, which makes another one when it is called with a node. -/
  | kind

end Conductor
