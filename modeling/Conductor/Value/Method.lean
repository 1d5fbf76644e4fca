import Conductor.Value.Inherited
import Conductor.Value.Mapping

/-!
# Methods of values

Calling a method of a plain value by its name. Dictionaries and lists can be changed that way; the
methods of all other values leave everything as it is, and so do those of dictionaries and lists
that only look.
-/

namespace Conductor

inductive ValueMember where
  /-- A method with the least and the greatest number of its arguments. -/
  | method (name : String) (least most : Nat)
  | inherited (name : String) (i : Inherited)
  /-- Something whose call is of no consequence. -/
  | idle
  deriving Repr

namespace Value

/-- The methods that count their arguments, by the type of their object. -/
def methods : String → List (String × Nat × Nat)
  | "dict" => [("clear", 0, 0), ("copy", 0, 0), ("fromkeys", 1, 2), ("get", 1, 2), ("items", 0, 0),
      ("keys", 0, 0), ("pop", 1, 2), ("popitem", 0, 0), ("setdefault", 1, 2), ("update", 0, 1),
      ("values", 0, 0), ("__contains__", 1, 1), ("__getitem__", 1, 1), ("__reversed__", 0, 0)]
  | "mappingproxy" => [("copy", 0, 0), ("get", 1, 2), ("items", 0, 0), ("keys", 0, 0),
      ("values", 0, 0)]
  | "list" => [("append", 1, 1), ("clear", 0, 0), ("copy", 0, 0), ("count", 1, 1), ("extend", 1, 1),
      ("index", 1, 3), ("insert", 2, 2), ("pop", 0, 1), ("remove", 1, 1), ("reverse", 0, 0),
      ("__getitem__", 1, 1), ("__reversed__", 0, 0)]
  | "tuple" => [("count", 1, 1), ("index", 1, 3)]
  | _ => []

/-- The basic operations beyond those of every object, by the type of their object. -/
def operations : String → List (String × Nat)
  | "dict" => [("__delitem__", 1), ("__iter__", 0), ("__len__", 0), ("__setitem__", 2)]
  | "mappingproxy" => [("__contains__", 1), ("__getitem__", 1), ("__iter__", 0), ("__len__", 0)]
  | "list" => [("__contains__", 1), ("__delitem__", 1), ("__iter__", 0), ("__len__", 0),
      ("__setitem__", 2)]
  | "tuple" | "str" | "bytes" =>
    [("__contains__", 1), ("__getitem__", 1), ("__iter__", 0), ("__len__", 0)]
  | "set" | "frozenset" => [("__iter__", 0), ("__len__", 0)]
  | "NoneType" => [("__bool__", 0)]
  | "int" | "bool" => [("__abs__", 0), ("__bool__", 0), ("__float__", 0), ("__index__", 0),
      ("__int__", 0), ("__invert__", 0), ("__neg__", 0), ("__pos__", 0)]
  | "float" => [("__abs__", 0), ("__bool__", 0), ("__float__", 0), ("__int__", 0), ("__neg__", 0),
      ("__pos__", 0)]
  | _ => []

/-- The names of methods of texts that bytes have as well. -/
def textNames : List String := [
  "capitalize", "center", "count", "endswith", "expandtabs", "find", "index", "isalnum", "isalpha",
  "isascii", "isdigit", "islower", "isspace", "istitle", "isupper", "join", "ljust", "lower",
  "lstrip", "maketrans", "partition", "removeprefix", "removesuffix", "replace", "rfind", "rindex",
  "rjust", "rpartition", "rsplit", "rstrip", "split", "splitlines", "startswith", "strip",
  "swapcase", "title", "translate", "upper", "zfill"]

def setNames : List String := [
  "copy", "difference", "intersection", "isdisjoint", "issubset", "issuperset",
  "symmetric_difference", "union"]

/-- The names of other methods, by the type of their object. -/
def idleNames : String → List String
  | "str" => textNames ++ ["casefold", "encode", "format", "format_map", "isdecimal",
      "isidentifier", "isnumeric", "isprintable"]
  | "bytes" => textNames ++ ["decode", "fromhex", "hex"]
  | "int" | "bool" => ["as_integer_ratio", "bit_count", "bit_length", "conjugate", "from_bytes",
      "to_bytes"]
  | "float" => ["as_integer_ratio", "conjugate", "fromhex", "hex", "is_integer"]
  | "frozenset" => setNames
  | "set" => setNames ++ ["add", "clear", "difference_update", "discard", "intersection_update",
      "pop", "remove", "symmetric_difference_update", "update"]
  | "list" => ["sort"]
  | _ => []

/-- The types of the parts of numbers that are no methods. -/
def constants : String → List (String × String)
  | "int" | "bool" =>
    [("denominator", "int"), ("imag", "int"), ("numerator", "int"), ("real", "int")]
  | "float" => [("imag", "float"), ("real", "float")]
  | _ => []

def isObject : Value → Bool
  | .store | .atom (.object _ _) => true
  | _ => false

def isHashable (v : Value) : Bool :=
  match v with
  | .list _ | .dict _ | .set false _ | .proxy _ => false
  | _ => true

def inherited? (v : Value) (name : String) : Option Inherited :=
  if name = "__hash__" && !v.isHashable then some (.constant "NoneType")
  else if name = "__doc__" && v.typeName = "NoneType" then some (.constant "NoneType")
  else if name = "__module__" && !v.isObject then none
  else match Inherited.members.lookup name with
    | some i => some i
    | none => if v.isObject then Inherited.fixed.lookup name else none

def member? (v : Value) (name : String) : Option ValueMember :=
  let type := v.typeName
  match (methods type).lookup name with
  | some (least, most) => some (.method name least most)
  | none =>
    match (operations type).lookup name with
    | some n => some (.inherited name (.operation n))
    | none =>
      match (constants type).lookup name with
      | some other => some (.inherited name (.constant other))
      | none =>
        if name ∈ idleNames type || name ∈ ["__class__", "__init__"] then some .idle
        else (v.inherited? name).map (.inherited name)

end Value

namespace ValueMember

/-- Whether a call of a method with `given` arguments fits. -/
def checkMethod (type name : String) (least most given : Nat) : Except Fault Unit :=
  if least ≤ given && given ≤ most then .ok ()
  else if most ≤ 1 && least = most then .error (.inheritedArity type name most given)
  else .error (.argumentRange name least most given)

end ValueMember

namespace Heap

def position? (h : Heap) (items : List Value) (v : Value) : Option Nat :=
  items.findIdx? fun item => (h.read item).equals (h.read v)

def withList (h : Heap) (r : ListRef) (items : List Value) : Except Fault Unit × Heap :=
  (.ok (), h.setList r items)

def callList (h : Heap) (r : ListRef) (name : String) (arguments : List Value) :
    Except Fault Unit × Heap :=
  let items := h.list r
  let index? (v : Value) : Except Fault Int := match v.place? with
    | some n => if Value.isCountable n then .ok n else .error .indexTooLarge
    | none => .error (.notInteger v.typeName)
  match name, arguments with
  | "append", [v] => h.withList r (items ++ [v])
  | "clear", [] => h.withList r []
  | "extend", [v] =>
    match h.items? v with
    | .ok more => h.withList r (items ++ more)
    | .error f => (.error f, h)
  | "insert", [k, v] =>
    match index? k with
    | .error f => (.error f, h)
    | .ok n =>
      let i := (if n < 0 then max 0 (n + items.length) else min n items.length).toNat
      h.withList r (items.take i ++ v :: items.drop i)
  | "pop", arguments =>
    match index? (arguments[0]?.getD (.int (-1))) with
    | .error f => (.error f, h)
    | .ok n =>
      match Value.indexOf? items.length n with
      | some i => h.withList r (items.eraseIdx i)
      | none => (.error (.popRange items.isEmpty), h)
  | "remove", [v] =>
    match h.position? items v with
    | some i => h.withList r (items.eraseIdx i)
    | none => (.error .notRemovable, h)
  | "reverse", [] => h.withList r items.reverse
  | "index", v :: _ =>
    match h.position? items v with
    | some _ => (.ok (), h)
    | none => (.error (.notInList (h.read v)), h)
  | "__getitem__", [k] => ((h.item (.list r) k).map fun _ => (), h)
  | _, _ => (.ok (), h)

def callDictionary (h : Heap) (r : DictRef) (name : String) (arguments : List Value) :
    Except Fault Unit × Heap :=
  let entries := h.dict r
  let keyed (k : Value) (next : Key → Except Fault Unit × Heap) : Except Fault Unit × Heap :=
    match Template.keyOf k with
    | .ok key => next key
    | .error f => (.error f, h)
  match name, arguments with
  | "clear", [] => (.ok (), h.setDict r [])
  | "get", k :: _ | "__contains__", [k] => keyed k fun _ => (.ok (), h)
  | "__getitem__", [k] => ((h.item (.dict r) k).map fun _ => (), h)
  | "pop", k :: fallback => keyed k fun key =>
      if entries.contains key then (.ok (), h.setDict r (entries.erase key))
      else if fallback.isEmpty then (.error (.missingKey (.ofKey key)), h) else (.ok (), h)
  | "popitem", [] =>
    if entries.isEmpty then (.error .emptyDictionary, h) else (.ok (), h.setDict r entries.dropLast)
  | "setdefault", k :: rest => keyed k fun key =>
      if entries.contains key then (.ok (), h)
      else (.ok (), h.setDict r (entries.insert key (rest[0]?.getD .null)))
  | "update", [v] =>
    match h.mapping? v with
    | some more => (.ok (), h.setDict r (entries.merge more))
    | none =>
      match h.items? v with
      | .error f => (.error f, h)
      | .ok items =>
        match h.pairs? 0 items with
        | .error f => (.error f, h)
        | .ok pairs => (.ok (), h.setDict r (entries.merge pairs))
  | "fromkeys", v :: _ =>
    (match h.items? v with
      | .error f => .error f
      | .ok items => (Template.keysOf items).map fun _ => (), h)
  | _, _ => (.ok (), h)

/-- Writes or removes an attribute of a plain value, which takes none unless it is an object. -/
def writeAttribute (v name : Value) : Except Fault Unit :=
  match name with
  | .atom (.text name) =>
    if v.isObject then .ok ()
    else if (v.member? name).isSome then .error (.readOnlyMember v.typeName name)
    else .error (.noAttribute v.typeName name)
  | name => .error (.attributeNameNotText name.typeName)

def callOperation (h : Heap) (v : Value) (name : String) (arguments : List Value) :
    Except Fault Unit × Heap :=
  let changed (r : Except Fault Heap) : Except Fault Unit × Heap :=
    match r with
    | .ok h => (.ok (), h)
    | .error f => (.error f, h)
  match name, arguments with
  | "__setitem__", [k, item] => changed (h.setItem v k item)
  | "__delitem__", [k] => changed (h.deleteItem v k)
  | "__getitem__", [k] => ((h.item v k).map fun _ => (), h)
  | "__setattr__", [name, _] | "__delattr__", [name] => (writeAttribute v name, h)
  | "__getattribute__", [.atom (.text name)] =>
    (if (v.member? name).isSome then .ok () else .error (.noAttribute v.typeName name), h)
  | "__getattribute__", [name] => (.error (.attributeNameNotText name.typeName), h)
  | _, _ => (.ok (), h)

def callMember (h : Heap) (v : Value) (arguments : List Value) :
    ValueMember → Except Fault Unit × Heap
  | .idle => (.ok (), h)
  | .inherited name i =>
    match i.check v.typeName name arguments with
    | .error f => (.error f, h)
    | .ok () => h.callOperation v name arguments
  | .method name least most =>
    match ValueMember.checkMethod v.typeName name least most arguments.length with
    | .error f => (.error f, h)
    | .ok () =>
      match v with
      | .list r => h.callList r name arguments
      | .dict r => h.callDictionary r name arguments
      | _ => (.ok (), h)

end Heap

end Conductor
