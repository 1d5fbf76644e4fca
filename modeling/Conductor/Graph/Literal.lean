import Conductor.Action.Catalogue
import Conductor.Graph.Compile

/-!
# Graph literals

How a graph is written: names of actions, sequences, mappings with written keys, and written values.
Making the literal makes the actions it names and an object for every other occurrence.
-/

namespace Conductor

inductive Literal where
  | action (name : String)
  | list (items : List Literal)
  | tuple (items : List Literal)
  | mapping (isProxy : Bool) (entries : List (Template × Literal))
  | value (t : Template)
  deriving Inhabited

/-- What making a literal changes: the actions made, and the heap. -/
structure Workshop where
  catalogue : Catalogue
  heap : Heap := {}

namespace Workshop

def itemOf (m : Made) : Item :=
  match m.action with
  | .value d attributes =>
    match Item.ofDatum m.token 0 d with
    | (.leaf id _, _) => .leaf id (.value d attributes)
    | (i, _) => i
  | .length => .leaf (.builtin "len") .length
  | .dictionary => .leaf (.builtin "dict") .dictionary
  | a => .leaf (.object m.token 0) a

/-- A made action as one object, also where it is a sequence or a mapping. -/
def objectOf (m : Made) : Item :=
  match m.action with
  | .value d _ => .leaf (Item.identityAt m.token 0 d) m.action
  | .length => .leaf (.builtin "len") .length
  | .dictionary => .leaf (.builtin "dict") .dictionary
  | a => .leaf (.object m.token 0) a

def action (w : Workshop) (name : String) : Except Fault Made × Workshop :=
  let (made, c, h) := w.catalogue.make name w.heap
  (made, ⟨c, h⟩)

/-- The pairs that inserting items under keys leaves: of two keys that are the same the later item
stays, at the place and under the form of the earlier. -/
def insertItem : List (Key × Item) → Key → Item → List (Key × Item)
  | [], k, i => [(k, i)]
  | (k', i') :: rest, k, i =>
    if k'.same k then (k', i) :: rest else (k', i') :: insertItem rest k i

mutual

def make : Literal → Workshop → Except Fault Item × Workshop
  | .action name, w =>
    match w.action name with
    | (.error f, w) => (.error f, w)
    | (.ok made, w) => (.ok (itemOf made), w)
  | .list items, w =>
    match makeList items w with
    | (.error f, w) => (.error f, w)
    | (.ok is, w) => (.ok (.list is), w)
  | .tuple items, w =>
    match makeList items w with
    | (.error f, w) => (.error f, w)
    | (.ok is, w) => (.ok (.tuple is), w)
  | .mapping isProxy entries, w =>
    match makeEntries [] entries w with
    | (.error f, w) => (.error f, w)
    | (.ok es, w) =>
      let (token, h) := w.heap.newToken
      (.ok (.mapping (.object token 0) isProxy es), { w with heap := h })
  | .value t, w =>
    match t.make w.heap with
    | (.error f, h) => (.error f, { w with heap := h })
    | (.ok v, h) =>
      let (token, h) := h.newToken
      (.ok (Item.ofDatum token 0 (h.read v)).1, { w with heap := h })

def makeList : List Literal → Workshop → Except Fault (List Item) × Workshop
  | [], w => (.ok [], w)
  | l :: ls, w =>
    match make l w with
    | (.error f, w) => (.error f, w)
    | (.ok i, w) =>
      match makeList ls w with
      | (.error f, w) => (.error f, w)
      | (.ok is, w) => (.ok (i :: is), w)

def makeEntries (acc : List (Key × Item)) :
    List (Template × Literal) → Workshop → Except Fault (List (Key × Item)) × Workshop
  | [], w => (.ok acc, w)
  | (t, l) :: rest, w =>
    match t.make w.heap with
    | (.error f, h) => (.error f, { w with heap := h })
    | (.ok v, h) =>
      match make l { w with heap := h } with
      | (.error f, w) => (.error f, w)
      | (.ok i, w) =>
        match Template.keyOf v with
        | .error f => (.error f, w)
        | .ok k => makeEntries (insertItem acc k i) rest w

end

end Workshop

end Conductor
