import Conductor.Value.Basic

/-!
# Data

A datum is a value read out of the heap at one moment: a finite tree that no later write changes.
It is what a log, a report or a message shows. A container that holds itself is cut where it is met
again.
-/

namespace Conductor

/-- A finite value. `cycle` stands for a list or a dictionary inside itself. -/
inductive Datum where
  | atom (a : Atom)
  | list (items : List Datum)
  | tuple (items : List Datum)
  | set (frozen : Bool) (items : List Key)
  | dict (entries : List (Key × Datum))
  | proxy (entries : List (Key × Datum))
  | cycle (isList : Bool)
  deriving Repr, Inhabited

namespace Datum

def null : Datum := atom .null

def text (s : String) : Datum := atom (.text s)

def int (n : Int) : Datum := atom (.int n)

def bool (b : Bool) : Datum := atom (.bool b)

def isTruthy : Datum → Bool
  | atom a => a.isTruthy
  | list items => !items.isEmpty
  | tuple items => !items.isEmpty
  | set _ items => !items.isEmpty
  | dict entries => !entries.isEmpty
  | proxy entries => !entries.isEmpty
  | cycle _ => true

def typeName : Datum → String
  | atom a => a.typeName
  | list _ => "list"
  | tuple _ => "tuple"
  | set frozen _ => if frozen then "frozenset" else "set"
  | dict _ => "dict"
  | proxy _ => "mappingproxy"
  | cycle isList => if isList then "list" else "dict"

def bracedPairs (pairs : List String) : String :=
  "\x7b" ++ String.intercalate ", " pairs ++ "\x7d"

mutual

def shown : Datum → String
  | atom a => a.shown
  | list items => "[" ++ String.intercalate ", " (shownList items) ++ "]"
  | tuple items => Key.bracketed (shownList items)
  | set frozen items => Key.braced frozen (Key.shownList items)
  | dict entries => bracedPairs (shownPairs entries)
  | proxy entries => "mappingproxy(" ++ bracedPairs (shownPairs entries) ++ ")"
  | cycle isList => if isList then "[...]" else "\x7b...\x7d"

def shownList : List Datum → List String
  | [] => []
  | d :: ds => shown d :: shownList ds

def shownPairs : List (Key × Datum) → List String
  | [] => []
  | (k, d) :: rest => (k.shown ++ ": " ++ shown d) :: shownPairs rest

end

/-- The datum as plain text: a text is itself, a view of a mapping is as the mapping it shows, and
anything else is its shown form. -/
def asText : Datum → String
  | atom (.text s) => s
  | proxy entries => shown (dict entries)
  | d => d.shown

mutual

def ofKey : Key → Datum
  | .atom a => atom a
  | .tuple items => tuple (ofKeys items)
  | .frozenset items => set true items

def ofKeys : List Key → List Datum
  | [] => []
  | k :: ks => ofKey k :: ofKeys ks

end

def sameMembers (xs ys : List Key) : Bool :=
  xs.length == ys.length && xs.all fun x => ys.any fun y => x.same y

mutual

/-- Whether two data are equal as values: numbers by what they count, dictionaries and sets without
regard to order, and a mapping view as the mapping it shows. -/
def same : Datum → Datum → Bool
  | atom a, atom b => a.canon = b.canon
  | list xs, list ys => sameList xs ys
  | tuple xs, tuple ys => sameList xs ys
  | set _ xs, set _ ys => sameMembers xs ys
  | dict xs, dict ys => xs.length == ys.length && samePairs xs ys
  | dict xs, proxy ys => xs.length == ys.length && samePairs xs ys
  | proxy xs, dict ys => xs.length == ys.length && samePairs xs ys
  | proxy xs, proxy ys => xs.length == ys.length && samePairs xs ys
  | cycle a, cycle b => a == b
  | _, _ => false

def sameList : List Datum → List Datum → Bool
  | [], [] => true
  | x :: xs, y :: ys => same x y && sameList xs ys
  | _, _ => false

def samePairs : List (Key × Datum) → List (Key × Datum) → Bool
  | [], _ => true
  | (k, d) :: rest, others =>
    (match others.find? fun e => e.1.same k with
      | some (_, d') => same d d'
      | none => false) && samePairs rest others

end

/-- Equality of two values as a comparison gives it. NaN differs from itself. -/
def equals : Datum → Datum → Bool
  | atom (.nan _), atom (.nan _) => false
  | a, b => same a b

/-- Sets the value under a key; a known key keeps its place. -/
def insertPair : List (Key × Datum) → Key → Datum → List (Key × Datum)
  | [], k, d => [(k, d)]
  | (k', d') :: rest, k, d =>
    if k'.same k then (k', d) :: rest else (k', d') :: insertPair rest k d

mutual

/-- Reduces a datum to what JSON can hold: scalars stay, sequences and sets become lists, keys become
texts, and everything else is replaced by its shown form. -/
def toJsonable : Datum → Datum
  | atom (.bytes bs) => text (Atom.bytes bs).shown
  | atom (.object token s) => text (Atom.object token s).shown
  | atom a => atom a
  | list items => list (toJsonableList items)
  | tuple items => list (toJsonableList items)
  | set _ items => list (toJsonableKeys items)
  | dict entries => dict (toJsonablePairs [] entries)
  | proxy entries => text (shown (proxy entries))
  | cycle isList => cycle isList

def toJsonableList : List Datum → List Datum
  | [] => []
  | d :: ds => toJsonable d :: toJsonableList ds

/-- Reduces pairs onto those reduced so far: of two keys with one text the later value stays. -/
def toJsonablePairs (acc : List (Key × Datum)) : List (Key × Datum) → List (Key × Datum)
  | [] => acc
  | (k, d) :: rest => toJsonablePairs (insertPair acc (.ofText k.asText) (toJsonable d)) rest

def toJsonableKeys : List Key → List Datum
  | [] => []
  | k :: ks => toJsonableKey k :: toJsonableKeys ks

def toJsonableKey : Key → Datum
  | .atom (.bytes bs) => text (Atom.bytes bs).shown
  | .atom (.object token s) => text (Atom.object token s).shown
  | .atom a => atom a
  | .tuple items => list (toJsonableKeys items)
  | .frozenset items => list (toJsonableKeys items)

end

end Datum

/-- What a value refers to, to tell a container met inside itself. -/
inductive Place where
  | list (ref : ListRef)
  | dict (ref : DictRef)
  deriving DecidableEq

namespace Heap

mutual

/-- Reads a value into a datum. `open` holds the containers being read, and `fuel` counts how many
more may be opened: no more than the heap holds. -/
def readValue (h : Heap) (fuel : Nat) (opened : List Place) : Value → Datum
  | .atom a => .atom a
  | .tuple items => .tuple (readValues h fuel opened items)
  | .set frozen items => .set frozen items
  | .proxy entries => .proxy (readPairs h fuel opened entries)
  | .list r =>
    match fuel with
    | 0 => .cycle true
    | fuel + 1 =>
      if .list r ∈ opened then .cycle true
      else .list (readValues h fuel (.list r :: opened) (h.list r))
  | .dict r =>
    match fuel with
    | 0 => .cycle false
    | fuel + 1 =>
      if .dict r ∈ opened then .cycle false
      else .dict (readPairs h fuel (.dict r :: opened) (h.dict r))
  | .store => .atom (.object 0 "<store>")
  | .completion _ id => .atom (.object id "<completion>")
termination_by v => (fuel, sizeOf v)

def readValues (h : Heap) (fuel : Nat) (opened : List Place) : List Value → List Datum
  | [] => []
  | v :: vs => readValue h fuel opened v :: readValues h fuel opened vs
termination_by vs => (fuel, sizeOf vs)

def readPairs (h : Heap) (fuel : Nat) (opened : List Place) :
    List (Key × Value) → List (Key × Datum)
  | [] => []
  | (k, v) :: rest => (k, readValue h fuel opened v) :: readPairs h fuel opened rest
termination_by entries => (fuel, sizeOf entries)

end

/-- How many containers there are, which bounds how deep one can be read. -/
def containers (h : Heap) : Nat := h.lists.size + h.dicts.size + 1

def read (h : Heap) (v : Value) : Datum := h.readValue h.containers [] v

def readEntries (h : Heap) (entries : Entries) : List (Key × Datum) :=
  h.readPairs h.containers [] entries

end Heap

end Conductor
