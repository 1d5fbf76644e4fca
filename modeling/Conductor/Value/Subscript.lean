import Conductor.Value.Template

/-!
# Subscripts

Reading, writing and removing an item of a value: a mapping looks its items up by key, a sequence
counts them, from the end if the place is negative. A place is a whole number of limited size, and
what is refused is told by the kind of the container.
-/

namespace Conductor

namespace Value

def place? : Value → Option Int
  | .atom (.int n) => some n
  | .atom (.bool b) => some (if b then 1 else 0)
  | _ => none

/-- The bound below which places are counted. -/
def placeLimit : Int := 0x8000000000000000

def isCountable (place : Int) : Bool := -placeLimit ≤ place && place < placeLimit

def sequence? (h : Heap) : Value → Option (List Value)
  | .list r => some (h.list r)
  | .tuple items => some items
  | .atom (.text s) => some (s.toList.map fun c => .text (String.singleton c))
  | .atom (.bytes bs) => some (bs.map fun b => .int b.toNat)
  | _ => none

/-- Whether a value counts its items or its members at all, although it may give none of them out by
place. -/
def isCollection : Value → Bool
  | .list _ | .tuple _ | .dict _ | .proxy _ | .set _ _ => true
  | .atom (.text _) | .atom (.bytes _) | .atom (.object _ _) => true
  | .store | .completion _ _ => true
  | .atom _ => false

/-- The index that a place means among `size` items. -/
def indexOf? (size : Nat) (place : Int) : Option Nat :=
  let index := if place < 0 then place + size else place
  if 0 ≤ index && index < size then some index.toNat else none

/-- The index that a key means among the items of a sequence, or what is wrong with it. -/
def indexIn (container : String) (writing : Bool) (size : Nat) (k : Value) : Except Fault Nat :=
  match k.place? with
  | none => .error (.badIndex container k.typeName)
  | some place =>
    if isCountable place then
      match indexOf? size place with
      | some i => .ok i
      | none => .error (.indexRange container writing)
    else .error .indexTooLarge

end Value

namespace Heap

def item (h : Heap) (container k : Value) : Except Fault Value :=
  match h.mapping? container with
  | some entries => do
    let key ← Template.keyOf k
    match entries.get? key with
    | some v => return v
    | none => .error (.missingKey (.ofKey key))
  | none =>
    match container.sequence? h with
    | some items => do
      let i ← Value.indexIn container.typeName false items.length k
      return items[i]?.getD .null
    | none => .error (.notSubscriptable container.typeName)

/-- What refuses to write or remove an item by its place: a place too large to count comes first. -/
def placeFault (container k : Value) (refused otherwise : Fault) : Fault :=
  match k.place? with
  | some place =>
    if container.isCollection then
      if Value.isCountable place then refused else .indexTooLarge
    else otherwise
  | none => otherwise

def setItem (h : Heap) (container k v : Value) : Except Fault Heap :=
  match container with
  | .dict r => do
    let key ← Template.keyOf k
    return h.setDict r ((h.dict r).insert key v)
  | .list r => do
    let items := h.list r
    let i ← Value.indexIn "list" true items.length k
    return h.setList r (items.set i v)
  | c =>
    .error (placeFault c k (.noItemAssignment c.typeName) (.noItemAssignment c.typeName))

def deleteItem (h : Heap) (container k : Value) : Except Fault Heap :=
  match container with
  | .dict r => do
    let key ← Template.keyOf k
    if (h.dict r).contains key then return h.setDict r ((h.dict r).erase key)
    else .error (.missingKey (.ofKey key))
  | .list r => do
    let items := h.list r
    let i ← Value.indexIn "list" true items.length k
    return h.setList r (items.eraseIdx i)
  | c =>
    .error (placeFault c k (.noPlaceDeletion c.typeName) (.noItemDeletion c.typeName))

end Heap

end Conductor
