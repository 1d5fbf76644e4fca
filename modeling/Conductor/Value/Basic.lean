import Conductor.Completion.Policy
import Conductor.Value.Key

/-!
# Values and the heap

Lists and dictionaries are shared and can change, so a value holds them by reference and the heap
holds their contents. All other values are immutable and are held directly. Copying a dictionary is
shallow: the copy holds the same references.
-/

namespace Conductor

structure ListRef where
  index : Nat
  deriving DecidableEq, Repr, Inhabited

structure DictRef where
  index : Nat
  deriving DecidableEq, Repr, Inhabited

/-- A value that actions compute with. `store` is the collaborator that every action is handed, and
`completion` a completion descriptor by its number and kind. -/
inductive Value where
  | atom (a : Atom)
  | tuple (items : List Value)
  | set (frozen : Bool) (items : List Key)
  | proxy (entries : List (Key × Value))
  | list (ref : ListRef)
  | dict (ref : DictRef)
  | store
  | completion (policy : Policy) (id : Nat)
  deriving Repr, Inhabited

/-- The pairs of a dictionary in insertion order. -/
abbrev Entries := List (Key × Value)

namespace Entries

def get? (entries : Entries) (k : Key) : Option Value :=
  (entries.find? fun e => e.1.same k).map (·.2)

def contains (entries : Entries) (k : Key) : Bool :=
  entries.any fun e => e.1.same k

/-- Sets the value under a key. A known key keeps its place and its own form. -/
def insert : Entries → Key → Value → Entries
  | [], k, v => [(k, v)]
  | (k', v') :: rest, k, v => if k'.same k then (k', v) :: rest else (k', v') :: insert rest k v

def erase (entries : Entries) (k : Key) : Entries :=
  entries.filter fun e => !e.1.same k

/-- Writes every pair of `source`, in its order, over `target`. -/
def merge (target source : Entries) : Entries :=
  source.foldl (fun acc e => insert acc e.1 e.2) target

def ofPairs (pairs : List (Key × Value)) : Entries :=
  merge [] pairs

def keys (entries : Entries) : List Key := entries.map (·.1)

end Entries

namespace Value

def null : Value := atom .null

def int (n : Int) : Value := atom (.int n)

def text (s : String) : Value := atom (.text s)

def typeName : Value → String
  | atom a => a.typeName
  | tuple _ => "tuple"
  | set frozen _ => if frozen then "frozenset" else "set"
  | proxy _ => "mappingproxy"
  | list _ => "list"
  | dict _ => "dict"
  | store => "Store"
  | completion policy _ => policy.name

mutual

/-- The value as a key; a container that can change is refused by the name of its type. -/
def toKey? : Value → Except String Key
  | atom a => .ok (.atom a)
  | tuple items => (toKeys? items).map .tuple
  | set true items => .ok (.frozenset items)
  | set false _ => .error "set"
  | proxy _ => .error "mappingproxy"
  | list _ => .error "list"
  | dict _ => .error "dict"
  | store => .ok (.atom (.object 0 "<store>"))
  | completion _ id => .ok (.atom (.object id "<completion>"))

/-- Several values as keys; the first refusal counts. -/
def toKeys? : List Value → Except String (List Key)
  | [] => .ok []
  | v :: vs => do
    let k ← toKey? v
    let ks ← toKeys? vs
    return k :: ks

end

mutual

def ofKey : Key → Value
  | .atom a => atom a
  | .tuple items => tuple (ofKeys items)
  | .frozenset items => set true items

def ofKeys : List Key → List Value
  | [] => []
  | k :: ks => ofKey k :: ofKeys ks

end

end Value

/-- The contents of all lists and dictionaries, and the next unused token. -/
structure Heap where
  lists : Array (List Value) := #[]
  dicts : Array Entries := #[]
  tokens : Nat := 0
  deriving Inhabited

namespace Heap

def newList (h : Heap) (items : List Value) : ListRef × Heap :=
  (⟨h.lists.size⟩, { h with lists := h.lists.push items })

def newDict (h : Heap) (entries : Entries) : DictRef × Heap :=
  (⟨h.dicts.size⟩, { h with dicts := h.dicts.push entries })

def newToken (h : Heap) : Nat × Heap :=
  (h.tokens, { h with tokens := h.tokens + 1 })

def list (h : Heap) (r : ListRef) : List Value := h.lists[r.index]?.getD []

def dict (h : Heap) (r : DictRef) : Entries := h.dicts[r.index]?.getD []

def setList (h : Heap) (r : ListRef) (items : List Value) : Heap :=
  { h with lists := h.lists.setIfInBounds r.index items }

def setDict (h : Heap) (r : DictRef) (entries : Entries) : Heap :=
  { h with dicts := h.dicts.setIfInBounds r.index entries }

def mapping? (h : Heap) : Value → Option Entries
  | .dict r => some (h.dict r)
  | .proxy entries => some entries
  | _ => none

/-- Empty containers count as absent, as do the absent atoms. -/
def isTruthy (h : Heap) : Value → Bool
  | .atom a => a.isTruthy
  | .tuple items => !items.isEmpty
  | .set _ items => !items.isEmpty
  | .proxy entries => !entries.isEmpty
  | .list r => !(h.list r).isEmpty
  | .dict r => !(h.dict r).isEmpty
  | .store => true
  | .completion _ _ => true

end Heap

end Conductor
