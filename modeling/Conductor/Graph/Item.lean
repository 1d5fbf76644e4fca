import Conductor.Action.Basic

/-!
# Graph items

A graph is a nested literal of sequences, mappings, and everything else, which stands for an action.
Items that are not sequences carry an identity, because a graph that uses one object in several
places names one action.
-/

namespace Conductor

/-- What makes two items one object: scalars of which there is only one, a builtin callable, or the
place where an object was made, given by a token and a position within what the token stands for. -/
inductive Identity where
  | single (a : Atom)
  | builtin (name : String)
  | object (token position : Nat)
  deriving DecidableEq, Repr

inductive Item where
  | list (items : List Item)
  | tuple (items : List Item)
  | mapping (id : Identity) (isProxy : Bool) (entries : List (Key × Item))
  | leaf (id : Identity) (action : Action)

namespace Item

def typeName : Item → String
  | list _ => "list"
  | tuple _ => "tuple"
  | mapping _ isProxy _ => if isProxy then "mappingproxy" else "dict"
  | leaf _ a => a.shortTypeName

mutual

/-- The item as a datum; a callable is an object known by its shown form. -/
def datum : Item → Datum
  | list items => .list (dataOf items)
  | tuple items => .tuple (dataOf items)
  | mapping _ isProxy entries =>
    if isProxy then .proxy (pairsOf entries) else .dict (pairsOf entries)
  | leaf _ (.value d _) => d
  | leaf _ a => .atom (.object 0 a.shown.asText)

def dataOf : List Item → List Datum
  | [] => []
  | i :: is => datum i :: dataOf is

def pairsOf : List (Key × Item) → List (Key × Datum)
  | [] => []
  | (k, i) :: rest => (k, datum i) :: pairsOf rest

end

/-- What is called when an item stands for an action: a callable itself, and any other item as a
value that refuses the call. -/
def action : Item → Action
  | leaf _ a => a
  | i => .value (datum i) {}

def identity : Item → Identity
  | leaf id _ | mapping id _ _ => id
  | list _ | tuple _ => .single .null

/-- The scalars of which there is only one object: null, the truth values, the small integers, and
texts and bytes of at most one character. -/
def isSingle : Atom → Bool
  | .null | .bool _ => true
  | .int n => -5 ≤ n && n ≤ 256
  | .text s => match s.toList with
    | [] => true
    | [c] => c.toNat < 256
    | _ => false
  | .bytes bs => bs.length ≤ 1
  | _ => false

def identityAt (token position : Nat) : Datum → Identity
  | .atom a => if isSingle a then .single a else .object token position
  | _ => .object token position

mutual

/-- A datum as an item. Its parts are numbered from `next` on, in the order in which they are
written; the next free number is returned. -/
def ofDatum (token next : Nat) : Datum → Item × Nat
  | .list items =>
    let (is, next) := ofData token (next + 1) items
    (list is, next)
  | .tuple items =>
    let (is, next) := ofData token (next + 1) items
    (tuple is, next)
  | .dict entries =>
    let (es, after) := ofPairs token (next + 1) entries
    (mapping (.object token next) false es, after)
  | .proxy entries =>
    let (es, after) := ofPairs token (next + 1) entries
    (mapping (.object token next) true es, after)
  | d => (leaf (identityAt token next d) (.value d {}), next + 1)

def ofData (token next : Nat) : List Datum → List Item × Nat
  | [] => ([], next)
  | d :: ds =>
    let (i, next) := ofDatum token next d
    let (is, next) := ofData token next ds
    (i :: is, next)

def ofPairs (token next : Nat) : List (Key × Datum) → List (Key × Item) × Nat
  | [] => ([], next)
  | (k, d) :: rest =>
    let (i, next) := ofDatum token next d
    let (is, next) := ofPairs token next rest
    ((k, i) :: is, next)

end

def token : Identity → Nat
  | .object n _ => n
  | _ => 0

def parts (id : Identity) (data : List Datum) : List Item := (ofData (token id) 1 data).1

/-- What walking through an item yields: the items of a sequence, the keys of a mapping, the
characters of a text, the numbers of bytes, the members of a set. -/
def walk : Item → Except Fault (List Item)
  | list items | tuple items => .ok items
  | mapping id _ entries => .ok (parts id (entries.map fun e => .ofKey e.1))
  | leaf id (.value (.atom (.text s)) _) =>
    .ok (parts id (s.toList.map fun c => .text (String.singleton c)))
  | leaf id (.value (.atom (.bytes bs)) _) => .ok (parts id (bs.map fun b => .int b.toNat))
  | leaf id (.value (.set _ items) _) => .ok (parts id (items.map .ofKey))
  | leaf _ a => .error (.notIterable a.typeName)

end Item

end Conductor
