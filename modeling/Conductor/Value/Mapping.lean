import Conductor.Value.Subscript

/-!
# Mappings

Merging one mapping into another, and making a fresh dictionary of whatever can be read as one.
A merge overwrites and never removes; its source must be a mapping or absent, and a refused source
leaves the target as it was.
-/

namespace Conductor

namespace Heap

/-- Copies every key of `source` onto the dictionary `target`. -/
def merge (h : Heap) (target : DictRef) (source : Value) : Except Fault Heap :=
  match source with
  | .atom .null => .ok h
  | v =>
    match h.mapping? v with
    | some entries => .ok (h.setDict target ((h.dict target).merge entries))
    | none => .error (.payloadNotMapping v.typeName)

/-- Sets items of a value one after the other, up to the first that is refused. -/
def setItems (target : Value) : Entries → Heap → Except Fault Unit × Heap
  | [], h => (.ok (), h)
  | (k, v) :: rest, h =>
    match h.setItem target (.ofKey k) v with
    | .error f => (.error f, h)
    | .ok h => setItems target rest h

/-- Copies every key of `source` onto any value that may take items. -/
def mergeInto (h : Heap) (target source : Value) : Except Fault Unit × Heap :=
  match target, source with
  | _, .atom .null => (.ok (), h)
  | .dict r, source =>
    match h.merge r source with
    | .ok h => (.ok (), h)
    | .error f => (.error f, h)
  | target, source =>
    match h.mapping? source with
    | some entries => setItems target entries h
    | none => (.error (.payloadNotMapping source.typeName), h)

def items? (h : Heap) : Value → Except Fault (List Value)
  | .tuple items => .ok items
  | .list r => .ok (h.list r)
  | .set _ items => .ok (Value.ofKeys items)
  | .dict r => .ok ((h.dict r).keys.map Value.ofKey)
  | .proxy entries => .ok ((Entries.keys entries).map Value.ofKey)
  | .atom (.text s) => .ok (s.toList.map fun c => .text (String.singleton c))
  | .atom (.bytes bs) => .ok (bs.map fun b => .int b.toNat)
  | v => .error (.notIterable v.typeName)

/-- Reads a sequence of pairs, which must each have two parts, as dictionary entries. -/
def pairs? (h : Heap) (position : Nat) : List Value → Except Fault (List (Key × Value))
  | [] => .ok []
  | v :: vs =>
    match h.items? v with
    | .error _ => .error (.notPair position)
    | .ok [k, d] => do
      let key ← Template.keyOf k
      let rest ← pairs? h (position + 1) vs
      return (key, d) :: rest
    | .ok parts => .error (.pairLength position parts.length)

/-- The entries of a fresh dictionary made of a value: none of an absent one, a mapping's own, or a
sequence of pairs. -/
def entriesOf (h : Heap) (v : Value) : Except Fault Entries :=
  if h.isTruthy v then
    match h.mapping? v with
    | some entries => .ok entries
    | none => do
      let items ← h.items? v
      let pairs ← h.pairs? 0 items
      return Entries.ofPairs pairs
  else .ok []

end Heap

end Conductor
