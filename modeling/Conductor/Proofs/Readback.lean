import Conductor.Graph.Compile
import Mathlib.Data.List.Basic

/-!
# Reading a tree back

Compiling loses nothing of a graph: what a tree holds can be read back, and is the graph with its
sequences written alike. A mapping is read back as the outputs of an action just if the item before it
became a node; anywhere else it is an object like others.
-/

namespace Conductor

/-- A graph as it is read back: tuples are lists, and the outputs of an action have no identity. -/
inductive Reading where
  /-- What stands for an action, or what an output leads to that is no branch list. -/
  | object (item : Item)
  | list (forms : List Reading)
  /-- The outputs of the action before. -/
  | outputs (entries : List (Key × Reading))

namespace Reading

mutual

def ofEntry (actions : List Item) : Entry → Option (List Reading)
  | .node head none => do
    let item ← actions[head.action]?
    return [object item]
  | .node head (some routes) => do
    let item ← actions[head.action]?
    let entries ← ofRoutes actions routes
    return [object item, outputs entries]
  | .nested entries => do
    let forms ← ofEntries actions entries
    return [list forms]

def ofEntries (actions : List Item) : List Entry → Option (List Reading)
  | [] => some []
  | e :: es => do
    let first ← ofEntry actions e
    let rest ← ofEntries actions es
    return first ++ rest

def ofRoutes (actions : List Item) : List (Key × Branch) → Option (List (Key × Reading))
  | [] => some []
  | (k, b) :: rest => do
    let form ← ofBranch actions b
    let entries ← ofRoutes actions rest
    return (k, form) :: entries

def ofBranch (actions : List Item) : Branch → Option Reading
  | .list entries => do
    let forms ← ofEntries actions entries
    return list forms
  | .raw item => some (object item)

end

mutual

/-- The items of a list in their normal form; `owned` tells whether the item before them stands for an
action that may still have outputs. -/
def normalFrom (owned : Bool) : List Item → List Reading
  | [] => []
  | .list items :: rest => list (normalFrom false items) :: normalFrom false rest
  | .tuple items :: rest => list (normalFrom false items) :: normalFrom false rest
  | .mapping id isProxy entries :: rest =>
    if owned then outputs (normalOutputs entries) :: normalFrom false rest
    else object (.mapping id isProxy entries) :: normalFrom true rest
  | .leaf id action :: rest => object (.leaf id action) :: normalFrom true rest

def normalOutputs : List (Key × Item) → List (Key × Reading)
  | [] => []
  | (k, item) :: rest => (k, normalOutput item) :: normalOutputs rest

def normalOutput : Item → Reading
  | .list items => list (normalFrom false items)
  | .tuple items => list (normalFrom false items)
  | item => object item

end

def normal (items : List Item) : List Reading := normalFrom false items

mutual

def objects : Reading → List Item
  | object item => [item]
  | list forms => objectsOf forms
  | outputs entries => objectsOfPairs entries

def objectsOf : List Reading → List Item
  | [] => []
  | f :: fs => f.objects ++ objectsOf fs

def objectsOfPairs : List (Key × Reading) → List Item
  | [] => []
  | (_, f) :: rest => f.objects ++ objectsOfPairs rest

end

end Reading

/-- What a tree is read back as; `none` if a node refers to no action of the tree. -/
def Tree.readBack (t : Tree) : Option (List Reading) := Reading.ofEntries t.items t.branches

/-- Whether an identity is that of one object only, as far as it stands for an object here. -/
def Item.ToldApart (items : List Item) : Prop :=
  ∀ i ∈ items, ∀ j ∈ items, i.identity = j.identity → i = j

/-! ### Registering -/

namespace Registry

variable {r : Registry} {item : Item}

/-- An index leads to the object that was registered under it, whatever is registered later. -/
theorem register_known {all : List Item} (further : (r.register item).2.items <+: all) :
    ∃ known, all[(r.register item).1]? = some known ∧ known ∈ (r.register item).2.items ∧
      known.identity = item.identity := by
  have own : ∃ known, (r.register item).2.items[(r.register item).1]? = some known ∧
      known.identity = item.identity := by
    unfold register
    split
    · rename_i i found
      obtain ⟨bound, same, -⟩ := List.findIdx?_eq_some_iff_getElem.mp found
      exact ⟨r.entries[i].item, by simp [items, bound], by simpa using same⟩
    · exact ⟨item, by simp [items], rfl⟩
  obtain ⟨known, here, same⟩ := own
  obtain ⟨more, rfl⟩ := further
  refine ⟨known, ?_, List.mem_of_getElem? here, same⟩
  rw [List.getElem?_append_left (List.getElem?_eq_some_iff.mp here).choose, here]

theorem register_prefix (r : Registry) (item : Item) : r.items <+: (r.register item).2.items := by
  unfold register
  split
  · exact List.prefix_rfl
  · simp [items]

theorem mem_register {other : Item} (member : other ∈ (r.register item).2.items) :
    other ∈ r.items ∨ other = item := by
  unfold register at member
  split at member
  · exact .inl member
  · simpa [items] using member

end Registry

/-! ### Compiling and reading back -/

namespace Graph

open Reading

/-- Whether compiling between two drafts only adds objects, and what it makes is read back as it should be,
whatever else is registered later. -/
structure Reads (pool : List Item) (d d' : Draft) (back : List Item → Prop) : Prop where
  grows : d.registry.items <+: d'.registry.items
  known : d'.registry.items ⊆ pool
  back : ∀ all, d'.registry.items <+: all → back all

variable {pool : List Item} {d d₁ d₂ d₃ d' : Draft} {item : Item} {path : Path} {isAsync : Bool} {head : Head}

theorem Reads.append {first rest both : List Item → Prop} (h : Reads pool d₁ d₂ first)
    (h' : Reads pool d₂ d₃ rest) (joined : ∀ all, first all → rest all → both all) :
    Reads pool d₁ d₃ both where
  grows := h.grows.trans h'.grows
  known := h'.known
  back all further := joined all (h.back all (h'.grows.trans further)) (h'.back all further)

/-- The action of a node is the very object that the node was compiled from. -/
theorem reads_addNode (apart : Item.ToldApart pool) (known : d.registry.items ⊆ pool)
    (member : item ∈ pool) (made : d.addNode item path isAsync = (head, d')) :
    Reads pool d d' fun all => all[head.action]? = some item := by
  obtain ⟨rfl, rfl⟩ := Prod.mk.inj made
  have known' : (d.registry.register item).2.items ⊆ pool := fun other there =>
    (Registry.mem_register there).elim (fun old => known old) (fun same => same ▸ member)
  refine ⟨Registry.register_prefix _ _, known', fun all further => ?_⟩
  obtain ⟨found, here, there, same⟩ := Registry.register_known further
  obtain rfl : found = item := apart found (known' there) item member same
  exact here

theorem normalFrom_owned {rest : List Item}
    (other : ∀ id isProxy outputs more, rest = .mapping id isProxy outputs :: more → False) (owned : Bool) :
    normalFrom owned rest = normalFrom false rest := by
  cases rest with
  | nil => simp [normalFrom]
  | cons item more =>
    cases item with
    | mapping id isProxy outputs => exact (other _ _ _ _ rfl).elim
    | _ => simp [normalFrom]

theorem normalFrom_object (other : ∀ items, item = .list items → False) (other' : ∀ items, item = .tuple items → False)
    (rest : List Item) : normalFrom false (item :: rest) = .object item :: normalFrom true rest := by
  cases item with
  | list items => exact (other _ rfl).elim
  | tuple items => exact (other' _ rfl).elim
  | _ => simp [normalFrom]

theorem normalOutput_object (other : ∀ items, item = .list items → False)
    (other' : ∀ items, item = .tuple items → False) : normalOutput item = .object item := by
  cases item with
  | list items => exact (other _ rfl).elim
  | tuple items => exact (other' _ rfl).elim
  | _ => simp [normalOutput]

theorem compile_reads (apart : Item.ToldApart pool) :
    (∀ path isAsync position items d, d.registry.items ⊆ pool → objectsOf (normalFrom false items) ⊆ pool →
      Reads pool d (compileList path isAsync position items d).2 fun all =>
        ofEntries all (compileList path isAsync position items d).1 = some (normalFrom false items)) ∧
    (∀ path outputs d, d.registry.items ⊆ pool → objectsOfPairs (normalOutputs outputs) ⊆ pool →
      Reads pool d (compileOutputs path outputs d).2 fun all =>
        ofRoutes all (compileOutputs path outputs d).1 = some (normalOutputs outputs)) ∧
    (∀ path item d, d.registry.items ⊆ pool → (normalOutput item).objects ⊆ pool →
      Reads pool d (compileOutput path item d).2 fun all =>
        ofBranch all (compileOutput path item d).1 = some (normalOutput item)) := by
  -- a sequence nested in a list is read back as one form, and then come those of the rest
  have nested {first rest : List Entry} {forms more : List Reading} {all : List Item}
      (inner : ofEntries all first = some forms) (outer : ofEntries all rest = some more) :
      ofEntries all (.nested first :: rest) = some (.list forms :: more) := by
    simp [ofEntries, ofEntry, inner, outer]
  have output {entries : List Entry} {forms : List Reading} {all : List Item}
      (inner : ofEntries all entries = some forms) : ofBranch all (.list entries) = some (.list forms) := by
    simp [ofBranch, inner]
  refine compileList.mutual_induct _ _ _ ?listBehind ?tupleBehind ?raw ?nil ?list ?tuple ?owner ?leaf ?noOutputs
    ?output
  case listBehind | tupleBehind =>
    intro path items d entries d₁ same ih known within
    simp only [normalOutput, objects] at within
    have inner := ih known within
    simp only [same] at inner
    simp only [compileOutput, same, normalOutput]
    exact ⟨inner.grows, inner.known, fun all further => output (inner.back all further)⟩
  case raw =>
    intro path item d other other' known within
    rw [compileOutput.eq_3 _ _ _ other other', normalOutput_object other other']
    exact ⟨List.prefix_rfl, known, fun all _ => rfl⟩
  case nil =>
    intro path isAsync position d known within
    simp only [compileList, normalFrom]
    exact ⟨List.prefix_rfl, known, fun all _ => rfl⟩
  case list | tuple =>
    intro path isAsync position items rest d inner d₁ same entries d₂ same' ih ih' known within
    simp only [normalFrom, objectsOf, objects, List.append_subset] at within
    have first := ih known within.1
    simp only [same] at first
    have later := ih' first.known within.2
    simp only [same'] at later
    simp only [compileList, same, same', normalFrom]
    exact first.append later fun all => nested
  case owner =>
    intro path isAsync position item id isProxy outputs rest d other other' head d₁ made routes d₂ same
      entries d₃ same' ih ih' known within
    rw [normalFrom_object other other'] at within ⊢
    simp only [normalFrom, if_true, objectsOf, objects, List.append_subset, List.cons_subset, List.nil_subset,
      and_true] at within ⊢
    have own := reads_addNode apart known within.1 made
    have routed := ih own.known within.2.1
    simp only [same] at routed
    have later := ih' routed.known within.2.2
    simp only [same'] at later
    rw [compileList.eq_4 _ _ _ _ _ _ _ _ _ other other']
    simp only [made, same, same']
    refine (own.append routed fun all here there => And.intro here there).append later fun all both rest => ?_
    simp [ofEntries, ofEntry, both.1, both.2, rest]
  case leaf =>
    intro path isAsync position item rest d other other' other'' head d₁ made entries d₂ same ih known within
    rw [normalFrom_object other other', normalFrom_owned other''] at within ⊢
    simp only [objectsOf, objects, List.append_subset, List.cons_subset, List.nil_subset, and_true] at within
    have own := reads_addNode apart known within.1 made
    have later := ih own.known within.2
    simp only [same] at later
    rw [compileList.eq_5 _ _ _ _ _ _ other other' other'']
    simp only [made, same]
    refine own.append later fun all here rest => ?_
    simp [ofEntries, ofEntry, here, rest]
  case noOutputs =>
    intro path d known within
    simp only [compileOutputs, normalOutputs]
    exact ⟨List.prefix_rfl, known, fun all _ => rfl⟩
  case output =>
    intro path k item rest d branch d₁ same routes d₂ same' ih ih' known within
    simp only [normalOutputs, objectsOfPairs, List.append_subset] at within
    have first := ih known within.1
    simp only [same] at first
    have later := ih' first.known within.2
    simp only [same'] at later
    simp only [compileOutputs, same, same', normalOutputs]
    refine first.append later fun all here rest => ?_
    simp [ofRoutes, here, rest]

end Graph

namespace Reading

/-- Whether an action stands before a place in a list, which may have outputs; `owned` tells of what stands
before the list. -/
def Owned (owned : Bool) (forms : List Reading) : Nat → Prop
  | 0 => owned
  | i + 1 => ∃ item, forms[i]? = some (object item)

theorem owned_cons {first : Reading} {forms : List Reading} {owned next : Bool}
    (kind : next = true ↔ ∃ item, first = object item) (i : Nat) :
    Owned owned (first :: forms) (i + 1) ↔ Owned next forms i := by
  cases i with
  | zero => simpa [Owned] using kind.symm
  | succ i => simp [Owned]

theorem length_normalFrom (items : List Item) (owned : Bool) : (normalFrom owned items).length = items.length := by
  induction items generalizing owned with
  | nil => simp [normalFrom]
  | cons item rest ih => cases item <;> cases owned <;> simp [normalFrom, ih]

/-- A mapping declares the outputs of the action before it, if there is one, and otherwise is an object
itself. -/
theorem normalFrom_mapping {items : List Item} {i : Nat} {id : Identity} {isProxy : Bool}
    {entries : List (Key × Item)} (found : items[i]? = some (.mapping id isProxy entries)) (owned : Bool) :
    (Owned owned (normalFrom owned items) i → (normalFrom owned items)[i]? = some (outputs (normalOutputs entries))) ∧
      (¬ Owned owned (normalFrom owned items) i →
        (normalFrom owned items)[i]? = some (object (.mapping id isProxy entries))) := by
  induction items generalizing i owned with
  | nil => cases found
  | cons item rest ih =>
    cases i with
    | zero =>
      obtain rfl := Option.some.inj found
      cases owned <;> simp [normalFrom, Owned]
    | succ i =>
      have later (first : Reading) (next : Bool) (kind : next = true ↔ ∃ item, first = object item) :
          (Owned owned (first :: normalFrom next rest) (i + 1) →
            (first :: normalFrom next rest)[i + 1]? = some (outputs (normalOutputs entries))) ∧
          (¬ Owned owned (first :: normalFrom next rest) (i + 1) →
            (first :: normalFrom next rest)[i + 1]? = some (object (.mapping id isProxy entries))) := by
        rw [owned_cons kind]
        exact ih found next
      cases item with
      | list items => simpa only [normalFrom] using later (list _) false (by simp)
      | tuple items => simpa only [normalFrom] using later (list _) false (by simp)
      | leaf id' action => simpa only [normalFrom] using later (object _) true (by simp)
      | mapping id' isProxy' entries' =>
        cases owned with
        | true => simpa only [normalFrom, if_true] using later (outputs _) false (by simp)
        | false => simpa only [normalFrom, Bool.false_eq_true, if_false] using later (object _) true (by simp)

theorem normalOutputs_eq_map (entries : List (Key × Item)) :
    normalOutputs entries = entries.map fun e => (e.1, normalOutput e.2) := by
  induction entries with
  | nil => simp [normalOutputs]
  | cons e rest ih => simp [normalOutputs, ih]

end Reading

namespace Graph

open Reading

/-- What a graph was compiled to is read back as the graph in its normal form. -/
theorem readBack_compileItems {items : List Item} (apart : Item.ToldApart (objectsOf (normal items))) :
    (compileItems items).readBack = some (normal items) :=
  ((compile_reads apart).1 [] false 0 items {} (List.nil_subset _) (List.Subset.refl _)).back _ List.prefix_rfl

/-- A compiled graph is read back as the graph in its normal form: one form for each item of each list, in
which a mapping declares the outputs of the item before it just if that stands for an action, and is
otherwise the same object as it was. So graphs that differ in their normal forms differ in their trees. -/
theorem compiled_graph_reads_back {graph : Item} {items : List Item} {t : Tree} (walked : graph.walk = .ok items)
    (apart : Item.ToldApart (objectsOf (normal items))) (compiled : compile graph = .ok t) :
    t.readBack = some (normal items) ∧
    (∀ list : List Item, (normal list).length = list.length ∧
      ∀ i id isProxy entries, list[i]? = some (.mapping id isProxy entries) →
        ((∃ j item, i = j + 1 ∧ (normal list)[j]? = some (.object item)) ↔
          (normal list)[i]? = some (.outputs (entries.map fun e => (e.1, normalOutput e.2)))) ∧
        ((∃ j item, i = j + 1 ∧ (normal list)[j]? = some (.object item)) ∨
          (normal list)[i]? = some (.object (.mapping id isProxy entries)))) ∧
    ∀ (graph' : Item) (items' : List Item), graph'.walk = .ok items' →
      Item.ToldApart (objectsOf (normal items')) → compile graph' = .ok t → normal items' = normal items := by
  have back {graph : Item} {items : List Item} (walked : graph.walk = .ok items)
      (apart : Item.ToldApart (objectsOf (normal items))) (compiled : compile graph = .ok t) :
      t.readBack = some (normal items) := by
    rw [compile, walked] at compiled
    obtain rfl := Except.ok.inj compiled
    exact readBack_compileItems apart
  refine ⟨back walked apart compiled, fun list => ⟨length_normalFrom list false, ?_⟩, ?_⟩
  · intro i id isProxy entries found
    obtain ⟨owned, free⟩ := normalFrom_mapping found false
    have before : Owned false (normal list) i ↔ ∃ j item, i = j + 1 ∧ (normal list)[j]? = some (.object item) := by
      cases i <;> simp [Owned]
    rw [normalOutputs_eq_map] at owned
    rw [← before]
    refine ⟨⟨owned, fun same => ?_⟩, or_iff_not_imp_left.mpr free⟩
    by_contra none
    cases same.symm.trans (free none)
  · intro graph' items' walked' apart' compiled'
    exact Option.some.inj ((back walked' apart' compiled').symm.trans (back walked apart compiled))

/-- An action with outputs, and after these two mappings more: the first of them stands for an action itself,
and the second declares the outputs of that. -/
def mappingsItems : List Item :=
  let plain (token : Nat) (label : String) : Item :=
    .leaf (.object token 0) (.function { label, signature := [], steps := [] } {})
  let outputs (token : Nat) (item : Item) : Item := .mapping (.object token 0) false [(.ofText "x", item)]
  [plain 0 "a", outputs 1 (.tuple [plain 0 "a"]), outputs 2 (.list []), outputs 3 (plain 4 "b"), .tuple [plain 0 "a"]]

/-- The first mapping is read back as outputs, the second as an object, and the third as outputs again. -/
theorem mappings_read_back : ∃ t, compile (.tuple mappingsItems) = .ok t ∧
    Item.ToldApart (objectsOf (normal mappingsItems)) ∧ t.readBack = some (normal mappingsItems) ∧
    (normal mappingsItems)[2]? = mappingsItems[2]?.map .object ∧
    ∃ entries, (normal mappingsItems)[3]? = some (.outputs entries) := by
  have apart : Item.ToldApart (objectsOf (normal mappingsItems)) := by
    intro i member j member' same
    simp only [mappingsItems, normal, normalFrom, if_true, Bool.false_eq_true, if_false, normalOutputs, normalOutput,
      objectsOf, objectsOfPairs, objects, List.mem_append, List.mem_cons, List.not_mem_nil,
      or_false] at member member'
    rcases member with rfl | rfl | rfl | rfl | rfl <;> rcases member' with rfl | rfl | rfl | rfl | rfl <;>
      simp_all [Item.identity]
  obtain ⟨back, places, -⟩ := @compiled_graph_reads_back (.tuple mappingsItems) mappingsItems _ rfl apart rfl
  obtain ⟨-, mapped⟩ := places mappingsItems
  have second : (normal mappingsItems)[2]? =
      some (.object (.mapping (.object 2 0) false [(.ofText "x", .list [])])) := rfl
  exact ⟨_, rfl, apart, back, second, _, (mapped 3 _ _ _ rfl).1.mp ⟨2, _, rfl, second⟩⟩

end Graph

end Conductor
