import Conductor.Fault

/-!
# Templates

How a value is written down before it exists. Evaluating a template makes its lists, dictionaries
and objects afresh each time. A script's templates may also mean the shared args themselves, a
value found in them, or a count one higher than the one found.
-/

namespace Conductor

inductive Template where
  | null
  | bool (b : Bool)
  | int (n : Int)
  | float (x : Binary64)
  | nan
  | text (s : String)
  | bytes (bs : List UInt8)
  | object (shown : String)
  | list (items : List Template)
  | tuple (items : List Template)
  | set (frozen : Bool) (items : List Template)
  | dict (entries : List (Template × Template))
  | proxy (entries : List (Template × Template))
  | sharedArgs
  | get (key fallback : Template)
  | increment (key : Template)
  deriving Repr, Inhabited

namespace Template

def keyOf (v : Value) : Except Fault Key :=
  match v.toKey? with
  | .ok k => .ok k
  | .error type => .error (.unhashable type)

def keysOf : List Value → Except Fault (List Key)
  | [] => .ok []
  | v :: vs => do
    let k ← keyOf v
    let ks ← keysOf vs
    return k :: ks

/-- The members of a set that is given several keys: of those that are the same the first. -/
def distinct : List Key → List Key
  | [] => []
  | k :: ks => k :: (distinct ks).filter fun l => !k.same l

/-- What a template may refer to: the args of its script, and the fault of looking something up in
args that are no mapping. -/
structure Surroundings where
  args : Value := .null
  noLookup : Fault := .noAttribute Value.null.typeName "get"

def lookUp (entries : Entries) (key fallback : Value) : Except Fault Value := do
  let k ← keyOf key
  return (entries.get? k).getD fallback

def addOne : Value → Except Fault (Value ⊕ Unit)
  | .atom (.int n) => .ok (.inl (.int (n + 1)))
  | .atom (.bool b) => .ok (.inl (.int (if b then 2 else 1)))
  | .atom (.float x) => .ok (.inl (.atom (.float x.succ)))
  | .atom (.nan _) => .ok (.inr ())
  | .atom (.text _) => .error (.cannotConcatenate "str")
  | .atom (.bytes _) => .error (.cannotConcatenate "bytes")
  | .tuple _ => .error (.cannotConcatenate "tuple")
  | .list _ => .error (.cannotConcatenate "list")
  | v => .error (.cannotAddOne v.typeName)

mutual

def eval (s : Surroundings) : Template → Heap → Except Fault Value × Heap
  | null, h => (.ok .null, h)
  | bool b, h => (.ok (.atom (.bool b)), h)
  | int n, h => (.ok (.int n), h)
  | float x, h => (.ok (.atom (.float x)), h)
  | nan, h => let (t, h) := h.newToken; (.ok (.atom (.nan t)), h)
  | text t, h => (.ok (.text t), h)
  | bytes bs, h => (.ok (.atom (.bytes bs)), h)
  | object shown, h => let (t, h) := h.newToken; (.ok (.atom (.object t shown)), h)
  | list items, h =>
    match evalList s items h with
    | (.error f, h) => (.error f, h)
    | (.ok vs, h) => let (r, h) := h.newList vs; (.ok (.list r), h)
  | tuple items, h =>
    match evalList s items h with
    | (.error f, h) => (.error f, h)
    | (.ok vs, h) => (.ok (.tuple vs), h)
  | set frozen items, h =>
    match evalList s items h with
    | (.error f, h) => (.error f, h)
    | (.ok vs, h) => ((keysOf vs).map fun ks => .set frozen (distinct ks), h)
  | dict entries, h =>
    match evalPairs s entries h with
    | (.error f, h) => (.error f, h)
    | (.ok pairs, h) => let (r, h) := h.newDict (Entries.ofPairs pairs); (.ok (.dict r), h)
  | proxy entries, h =>
    match evalPairs s entries h with
    | (.error f, h) => (.error f, h)
    | (.ok pairs, h) => (.ok (.proxy (Entries.ofPairs pairs)), h)
  | sharedArgs, h => (.ok s.args, h)
  | get key fallback, h =>
    match h.mapping? s.args with
    | none => (.error s.noLookup, h)
    | some entries =>
      match eval s key h with
      | (.error f, h) => (.error f, h)
      | (.ok k, h) =>
        match eval s fallback h with
        | (.error f, h) => (.error f, h)
        | (.ok d, h) => (lookUp entries k d, h)
  | increment key, h =>
    match h.mapping? s.args with
    | none => (.error s.noLookup, h)
    | some entries =>
      match eval s key h with
      | (.error f, h) => (.error f, h)
      | (.ok k, h) =>
        match lookUp entries k (.int 0) with
        | .error f => (.error f, h)
        | .ok v =>
          match addOne v with
          | .error f => (.error f, h)
          | .ok (.inl v) => (.ok v, h)
          | .ok (.inr ()) => let (t, h) := h.newToken; (.ok (.atom (.nan t)), h)

def evalList (s : Surroundings) : List Template → Heap → Except Fault (List Value) × Heap
  | [], h => (.ok [], h)
  | t :: ts, h =>
    match eval s t h with
    | (.error f, h) => (.error f, h)
    | (.ok v, h) =>
      match evalList s ts h with
      | (.error f, h) => (.error f, h)
      | (.ok vs, h) => (.ok (v :: vs), h)

/-- Makes the parts of several pairs, each with its first part as a key. -/
def evalPairs (s : Surroundings) :
    List (Template × Template) → Heap → Except Fault (List (Key × Value)) × Heap
  | [], h => (.ok [], h)
  | (k, v) :: rest, h =>
    match eval s k h with
    | (.error f, h) => (.error f, h)
    | (.ok k, h) =>
      match eval s v h with
      | (.error f, h) => (.error f, h)
      | (.ok v, h) =>
        match keyOf k with
        | .error f => (.error f, h)
        | .ok key =>
          match evalPairs s rest h with
          | (.error f, h) => (.error f, h)
          | (.ok pairs, h) => (.ok ((key, v) :: pairs), h)

end

/-- Makes the value of a template that stands in no script. -/
def make (t : Template) (h : Heap) : Except Fault Value × Heap := eval {} t h

def makeList (ts : List Template) (h : Heap) : Except Fault (List Value) × Heap :=
  evalList {} ts h

end Template

end Conductor
