import Conductor.Value.Atom

/-!
# Keys

The values that can be looked up: atoms, and tuples and frozen sets of keys. A container that can
change is not a key, so a dictionary never needs to rehash. `Key.same` tells which keys are one to a
dictionary, although they may differ in form.
-/

namespace Conductor

inductive Key where
  | atom (a : Atom)
  | tuple (items : List Key)
  | frozenset (items : List Key)
  deriving Repr, Inhabited

namespace Key

mutual

/-- Whether two keys address the same entry: atoms by their canonical forms, tuples item by item,
and frozen sets by their members, in whatever order these come. -/
def same : Key → Key → Bool
  | atom a, atom b => a.canon = b.canon
  | tuple xs, tuple ys => sameItems xs ys
  | frozenset xs, frozenset ys => isWithin xs ys && ys.all fun y => isAmong xs y
  | _, _ => false
termination_by structural k => k

def sameItems : List Key → List Key → Bool
  | [], [] => true
  | x :: xs, y :: ys => same x y && sameItems xs ys
  | _, _ => false
termination_by structural xs => xs

def isWithin : List Key → List Key → Bool
  | [], _ => true
  | x :: xs, ys => (ys.any fun y => same x y) && isWithin xs ys
termination_by structural xs => xs

def isAmong : List Key → Key → Bool
  | [], _ => false
  | x :: xs, y => same x y || isAmong xs y
termination_by structural xs => xs

end

def ofText (s : String) : Key := atom (.text s)

def text? : Key → Option String
  | atom (.text s) => some s
  | _ => none

def typeName : Key → String
  | atom a => a.typeName
  | tuple _ => "tuple"
  | frozenset _ => "frozenset"

/-- Items between brackets; a single item of a tuple keeps its comma. -/
def bracketed (items : List String) : String :=
  match items with
  | [item] => "(" ++ item ++ ",)"
  | _ => "(" ++ String.intercalate ", " items ++ ")"

/-- A set of the shown items, under the word for its kind where there is one. -/
def braced (frozen : Bool) (items : List String) : String :=
  let body := if items.isEmpty then "" else "\x7b" ++ String.intercalate ", " items ++ "\x7d"
  if frozen then "frozenset(" ++ body ++ ")"
  else if items.isEmpty then "set()" else body

mutual

def shown : Key → String
  | atom a => a.shown
  | tuple items => bracketed (shownList items)
  | frozenset items => braced true (shownList items)

def shownList : List Key → List String
  | [] => []
  | k :: ks => shown k :: shownList ks

end

/-- The key as plain text: a text is itself, anything else its shown form. -/
def asText : Key → String
  | atom (.text s) => s
  | k => k.shown

end Key

end Conductor
