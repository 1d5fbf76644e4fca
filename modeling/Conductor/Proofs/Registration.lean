import Conductor.Proofs.Readback
import Mathlib.Data.Finset.Card
import Mathlib.Data.Finset.Range

/-!
# The order of registration

Compiling registers the items that become nodes in the order in which the walk through the tree meets the
nodes. So an index that is met in the walk has been met before or is the next one, an index never comes to
stand for another object, and nodes share one just if they were compiled from one object.
-/

namespace Conductor

namespace Graph

mutual

/-- The items of a list that become nodes, each before those behind its outputs; `owned` tells whether the
item before the list stands for an action that may still have outputs. -/
def sourcesFrom (owned : Bool) : List Item → List Item
  | [] => []
  | .list items :: rest => sourcesFrom false items ++ sourcesFrom false rest
  | .tuple items :: rest => sourcesFrom false items ++ sourcesFrom false rest
  | .mapping id isProxy entries :: rest =>
    if owned then sourcesOfOutputs entries ++ sourcesFrom false rest
    else .mapping id isProxy entries :: sourcesFrom true rest
  | .leaf id action :: rest => .leaf id action :: sourcesFrom true rest

def sourcesOfOutputs : List (Key × Item) → List Item
  | [] => []
  | (_, item) :: rest => sourcesOfOutput item ++ sourcesOfOutputs rest

def sourcesOfOutput : Item → List Item
  | .list items => sourcesFrom false items
  | .tuple items => sourcesFrom false items
  | _ => []

end

/-- The items of a graph that become nodes. -/
def sources (items : List Item) : List Item := sourcesFrom false items

end Graph

/-! ### Registering items one after the other -/

namespace Registry

def registerAll : List Item → Registry → List Nat × Registry
  | [], r => ([], r)
  | item :: rest, r =>
    let (index, r) := r.register item
    let (indices, r) := registerAll rest r
    (index :: indices, r)

def identities (r : Registry) : List Identity := r.items.map Item.identity

variable {r : Registry} {item : Item} {index : Nat}

theorem length_identities : r.identities.length = r.size := by simp [identities, items, size]

theorem identities_append (entries : List Registered) (e : Registered) :
    identities ⟨entries ++ [e]⟩ = identities ⟨entries⟩ ++ [e.item.identity] := by simp [identities, items]

theorem length_registerAll (is : List Item) (r : Registry) : (registerAll is r).1.length = is.length := by
  induction is generalizing r with
  | nil => rfl
  | cons item rest ih => simp [registerAll, ih]

theorem registerAll_append (is more : List Item) (r : Registry) :
    registerAll (is ++ more) r =
      ((registerAll is r).1 ++ (registerAll more (registerAll is r).2).1,
        (registerAll more (registerAll is r).2).2) := by
  induction is generalizing r with
  | nil => rfl
  | cons item rest ih => simp [registerAll, ih]

/-- An object that is known keeps its index, and any other gets the next one. -/
theorem register_cases (r : Registry) (item : Item) :
    (∃ i, r.register item = (i, r) ∧ r.identities[i]? = some item.identity) ∨
    item.identity ∉ r.identities ∧
      r.register item = (r.size, ⟨r.entries ++ [⟨item, item.action.displayName⟩]⟩) := by
  unfold register
  split
  · rename_i i found
    obtain ⟨bound, same, -⟩ := List.findIdx?_eq_some_iff_getElem.mp found
    exact .inl ⟨i, rfl, by simpa [identities, items, bound] using same⟩
  · rename_i missing
    refine .inr ⟨fun known => ?_, rfl⟩
    obtain ⟨e, member, same⟩ : ∃ e ∈ r.entries, e.item.identity = item.identity := by
      simpa [identities, items] using known
    have differs := List.findIdx?_eq_none_iff.mp missing e member
    simp [same] at differs

theorem getElem?_of_prefix {α : Type} {l more : List α} {i : Nat} {x : α} (grows : l <+: more)
    (found : l[i]? = some x) : more[i]? = some x := by
  obtain ⟨bound, rfl⟩ := List.getElem?_eq_some_iff.mp found
  exact List.prefix_iff_getElem?.mp grows i bound

theorem register_entries (r : Registry) (item : Item) : r.entries <+: (r.register item).2.entries := by
  obtain ⟨i, same, -⟩ | ⟨-, same⟩ := register_cases r item <;> rw [same]
  exact List.prefix_append _ _

theorem registerAll_entries (is : List Item) (r : Registry) : r.entries <+: (registerAll is r).2.entries := by
  induction is generalizing r with
  | nil => exact List.prefix_rfl
  | cons item rest ih => exact (register_entries r item).trans (ih _)

theorem register_own (r : Registry) (item : Item) :
    ∃ e, (r.register item).2.entries[(r.register item).1]? = some e ∧ e.item.identity = item.identity := by
  obtain ⟨i, same, known⟩ | ⟨-, same⟩ := register_cases r item <;> rw [same]
  · simpa [identities, items] using known
  · exact ⟨⟨item, item.action.displayName⟩, by simp [size], rfl⟩

def Named (r : Registry) : Prop := ∀ e ∈ r.entries, e.name = e.item.action.displayName

theorem Named.register (named : r.Named) (item : Item) : (r.register item).2.Named := by
  obtain ⟨i, same, -⟩ | ⟨-, same⟩ := register_cases r item <;> rw [same]
  · exact named
  · intro e member
    rcases List.mem_append.mp member with old | new
    · exact named e old
    · obtain rfl := List.mem_singleton.mp new
      rfl

theorem Named.registerAll (named : r.Named) (is : List Item) : (registerAll is r).2.Named := by
  induction is generalizing r with
  | nil => exact named
  | cons item rest ih => exact ih (named.register item)

/-- The registered objects are those that were given, each at its first occurrence. -/
theorem identities_registerAll (is : List Item) :
    (registerAll is {}).2.identities = (is.map Item.identity).eraseDups := by
  induction is using List.reverseRecOn with
  | nil => rfl
  | append_singleton is item ih =>
    have known : item.identity ∈ (registerAll is {}).2.identities ↔ item.identity ∈ is.map Item.identity := by
      rw [ih, List.mem_eraseDups]
    rw [registerAll_append, List.map_append, List.eraseDups_append, ← ih]
    simp only [registerAll, List.map_cons, List.map_nil]
    obtain ⟨i, same, there⟩ | ⟨missing, same⟩ := register_cases (registerAll is {}).2 item <;> rw [same]
    · have old := known.mp (List.mem_of_getElem? there)
      rw [List.removeAll, List.filter_cons_of_neg (by simpa using old)]
      simp
    · have new := mt known.mpr missing
      rw [List.removeAll, List.filter_cons_of_pos (by simpa using new)]
      simp [identities_append, List.eraseDups_cons]

theorem nodup_registerAll (is : List Item) {r : Registry} (distinct : r.identities.Nodup) :
    (registerAll is r).2.identities.Nodup := by
  induction is generalizing r with
  | nil => exact distinct
  | cons item rest ih =>
    suffices (r.register item).2.identities.Nodup from ih this
    obtain ⟨i, same, -⟩ | ⟨missing, same⟩ := register_cases r item <;> rw [same]
    · exact distinct
    · rw [identities_append, ← List.concat_eq_append]
      exact distinct.concat missing

theorem items_registerAll (is : List Item) (r : Registry) : (registerAll is r).2.items.Sublist (r.items ++ is) := by
  induction is generalizing r with
  | nil => simp [registerAll]
  | cons item rest ih =>
    have step : (r.register item).2.items.Sublist (r.items ++ [item]) := by
      obtain ⟨i, same, -⟩ | ⟨-, same⟩ := register_cases r item <;> rw [same]
      · exact List.sublist_append_left _ _
      · simp [items]
    have later := (ih (r.register item).2).trans (step.append_right rest)
    rwa [List.append_assoc] at later

/-- The index of an item leads to what is registered for its object, whatever comes after it. -/
theorem getElem?_registerAll {is : List Item} {i : Nat} (found : is[i]? = some item) (r : Registry) :
    ∃ index e, (registerAll is r).1[i]? = some index ∧ (registerAll is r).2.entries[index]? = some e ∧
      e.item.identity = item.identity := by
  induction is generalizing r i with
  | nil => cases found
  | cons first rest ih =>
    cases i with
    | zero =>
      obtain rfl := Option.some.inj found
      obtain ⟨e, own, same⟩ := register_own r first
      exact ⟨_, e, rfl, getElem?_of_prefix (registerAll_entries rest (r.register first).2) own, same⟩
    | succ i => exact ih found _

theorem index_eq_iff {is : List Item} {i j k l : Nat} {a b : Item} (first : is[i]? = some a)
    (second : is[j]? = some b) (own : (registerAll is {}).1[i]? = some k) (own' : (registerAll is {}).1[j]? = some l) :
    k = l ↔ a.identity = b.identity := by
  obtain ⟨_, e, index, found, same⟩ := getElem?_registerAll first {}
  obtain rfl := Option.some.inj (index.symm.trans own)
  obtain ⟨_, e', index', found', same'⟩ := getElem?_registerAll second {}
  obtain rfl := Option.some.inj (index'.symm.trans own')
  have there {m : Nat} {e : Registered} (found : (registerAll is {}).2.entries[m]? = some e) :
      (registerAll is {}).2.identities[m]? = some e.item.identity := by
    simp [identities, items, found]
  constructor
  · rintro rfl
    rw [← same, ← same', Option.some.inj (found.symm.trans found')]
  · intro equal
    have distinct : (registerAll is {}).2.identities.Nodup := nodup_registerAll is List.nodup_nil
    have bound := (List.getElem?_eq_some_iff.mp (there found)).1
    refine (List.getElem?_inj bound distinct).mp ?_
    rw [there found, there found', same, same', equal]

/-- The indices that were handed out are those below the number of registered objects. -/
theorem mem_registerAll (is : List Item) (index : Nat) :
    index ∈ (registerAll is {}).1 ↔ index < (registerAll is {}).2.size := by
  induction is using List.reverseRecOn with
  | nil => simp [registerAll, size]
  | append_singleton is item ih =>
    rw [registerAll_append]
    simp only [registerAll, List.mem_append, ih, List.mem_singleton]
    obtain ⟨i, same, there⟩ | ⟨-, same⟩ := register_cases (registerAll is {}).2 item <;> rw [same]
    · have bound := (List.getElem?_eq_some_iff.mp there).1
      rw [length_identities] at bound
      dsimp only
      omega
    · simp only [size, List.length_append, List.length_singleton]
      omega

/-- An index was handed out before, or it is the number of those handed out before. -/
theorem registerAll_next {is : List Item} {earlier later : List Nat}
    (split : (registerAll is {}).1 = earlier ++ index :: later) : index ∈ earlier ∨ index = earlier.toFinset.card := by
  induction is using List.reverseRecOn generalizing later with
  | nil => simp [registerAll] at split
  | append_singleton is item ih =>
    rw [registerAll_append] at split
    simp only [registerAll] at split
    obtain rfl | ⟨more, last, rfl⟩ := List.eq_nil_or_concat later
    · obtain ⟨rfl, own⟩ := List.append_inj' split rfl
      have range : (registerAll is {}).1.toFinset = Finset.range (registerAll is {}).2.size := by
        ext k
        rw [List.mem_toFinset, mem_registerAll, Finset.mem_range]
      rw [range, Finset.card_range, mem_registerAll, ← (List.cons.inj own).1]
      obtain ⟨i, same, there⟩ | ⟨-, same⟩ := register_cases (registerAll is {}).2 item <;> rw [same]
      · have bound := (List.getElem?_eq_some_iff.mp there).1
        rw [length_identities] at bound
        exact .inl bound
      · exact .inr rfl
    · rw [List.concat_eq_append, ← List.cons_append, ← List.append_assoc] at split
      exact ih (List.append_inj' split rfl).1

end Registry

/-! ### Compiling -/

namespace Graph

open Registry

variable {d d₁ d₂ d₃ d' : Draft} {item : Item} {path : Path} {isAsync : Bool} {head : Head}
  {nodes more : List Node} {is js : List Item}

/-- Whether nodes that are made between two drafts are those of some items, registered one after the other. -/
structure Registers (d : Draft) (is : List Item) (nodes : List Node) (d' : Draft) : Prop where
  indices : nodes.map (·.head.action) = (registerAll is d.registry).1
  registry : d'.registry = (registerAll is d.registry).2
  names : ∀ n ∈ nodes, ∃ e, d'.registry.entries[n.head.action]? = some e ∧ e.name = n.name

theorem Registers.nil (d : Draft) : Registers d [] [] d := ⟨rfl, rfl, by simp⟩

theorem Registers.append (h : Registers d₁ is nodes d₂) (h' : Registers d₂ js more d₃) :
    Registers d₁ (is ++ js) (nodes ++ more) d₃ where
  indices := by rw [registerAll_append, List.map_append, h.indices, h'.indices, h.registry]
  registry := by rw [registerAll_append, h'.registry, h.registry]
  names n member := by
    rcases List.mem_append.mp member with first | later
    · obtain ⟨e, own, name⟩ := h.names n first
      have grows := registerAll_entries js d₂.registry
      rw [← h'.registry] at grows
      exact ⟨e, getElem?_of_prefix grows own, name⟩
    · exact h'.names n later

theorem registers_addNode (made : d.addNode item path isAsync = (head, d'))
    (outputs : Option (List (Key × Branch))) : Registers d [item] [⟨head, outputs⟩] d' := by
  obtain ⟨rfl, rfl⟩ := Prod.mk.inj made
  refine ⟨rfl, rfl, fun n member => ?_⟩
  obtain rfl := List.mem_singleton.mp member
  obtain ⟨e, own, -⟩ := register_own d.registry item
  refine ⟨e, own, ?_⟩
  change e.name = ((d.registry.register item).2.entries[(d.registry.register item).1]?.map (·.name)).getD .null
  rw [own]
  rfl

theorem sourcesFrom_owned {rest : List Item}
    (other : ∀ id isProxy outputs more, rest = .mapping id isProxy outputs :: more → False) (owned : Bool) :
    sourcesFrom owned rest = sourcesFrom false rest := by
  cases rest with
  | nil => simp [sourcesFrom]
  | cons item more =>
    cases item with
    | mapping id isProxy outputs => exact (other _ _ _ _ rfl).elim
    | _ => simp [sourcesFrom]

theorem sourcesFrom_item (other : ∀ items, item = .list items → False)
    (other' : ∀ items, item = .tuple items → False) (rest : List Item) :
    sourcesFrom false (item :: rest) = item :: sourcesFrom true rest := by
  cases item with
  | list items => exact (other _ rfl).elim
  | tuple items => exact (other' _ rfl).elim
  | _ => simp [sourcesFrom]

theorem compile_registers :
    (∀ path isAsync position items d, Registers d (sourcesFrom false items)
      (nodesOf (compileList path isAsync position items d).1) (compileList path isAsync position items d).2) ∧
    (∀ path outputs d, Registers d (sourcesOfOutputs outputs) (nodesOfRoutes (compileOutputs path outputs d).1)
      (compileOutputs path outputs d).2) ∧
    (∀ path item d, Registers d (sourcesOfOutput item) (compileOutput path item d).1.nodes
      (compileOutput path item d).2) := by
  refine compileList.mutual_induct _ _ _ ?listBehind ?tupleBehind ?raw ?nil ?list ?tuple ?owner ?leaf
    ?noOutputs ?output
  case listBehind | tupleBehind =>
    intro path items d entries d₁ same ih
    simp only [same] at ih
    simpa only [compileOutput, same, Branch.nodes, sourcesOfOutput] using ih
  case raw =>
    intro path item d other other'
    rw [compileOutput.eq_3 _ _ _ other other', sourcesOfOutput.eq_3 _ other other']
    exact .nil d
  case nil =>
    intro path isAsync position d
    simpa only [compileList, nodesOf, sourcesFrom] using Registers.nil d
  case list | tuple =>
    intro path isAsync position items rest d inner d₁ same entries d₂ same' ih ih'
    simp only [same] at ih
    simp only [same'] at ih'
    simpa only [compileList, same, same', nodesOf, Entry.nodes, sourcesFrom] using ih.append ih'
  case owner =>
    intro path isAsync position item id isProxy outputs rest d other other' head d₁ made routes d₂ same
      entries d₃ same' ih ih'
    simp only [same] at ih
    simp only [same'] at ih'
    have own := registers_addNode made (some routes)
    rw [compileList.eq_4 _ _ _ _ _ _ _ _ _ other other', sourcesFrom_item other other']
    simp only [made, same, same', nodesOf, Entry.nodes, sourcesFrom, if_true]
    have all := (own.append ih).append ih'
    rwa [List.singleton_append, List.singleton_append, List.cons_append] at all
  case leaf =>
    intro path isAsync position item rest d other other' other'' head d₁ made entries d₂ same ih
    simp only [same] at ih
    have own := registers_addNode made none
    rw [compileList.eq_5 _ _ _ _ _ _ other other' other'', sourcesFrom_item other other', sourcesFrom_owned other'']
    simp only [made, same, nodesOf, Entry.nodes]
    exact own.append ih
  case noOutputs =>
    intro path d
    simpa only [compileOutputs, nodesOfRoutes, sourcesOfOutputs] using Registers.nil d
  case output =>
    intro path k item rest d branch d₁ same routes d₂ same' ih ih'
    simp only [same] at ih
    simp only [same'] at ih'
    simpa only [compileOutputs, same, same', nodesOfRoutes, sourcesOfOutputs] using ih.append ih'

theorem registers_compileItems (items : List Item) :
    Registers {} (sources items) (compileItems items).nodes (compileList [] false 0 items {}).2 :=
  compile_registers.1 [] false 0 items {}

variable {graph : Item} {items : List Item} {t : Tree}

/-- The walk through a compiled graph meets the nodes in the order of the items that they were compiled from,
and in this order the items are registered. An index that is met has been met before, or is the number of
those met before. The tree has each object once, at its first occurrence, with its name; a node leads to the
object that it was compiled from and has the name of that, and two nodes have one index just if they were
compiled from one object. -/
theorem indices_follow_walk (walked : graph.walk = .ok items) (compiled : compile graph = .ok t) :
    (∀ earlier index later, t.nodes.map (·.head.action) = earlier ++ index :: later →
      index ∈ earlier ∨ index = earlier.toFinset.card) ∧
    t.items.Sublist (sources items) ∧ (t.items.map Item.identity).Nodup ∧
    t.items.map Item.identity = ((sources items).map Item.identity).eraseDups ∧
    t.names = t.items.map (·.action.displayName) ∧
    t.nodes.length = (sources items).length ∧
    ∀ (i : Nat) n a, t.nodes[i]? = some n → (sources items)[i]? = some a →
      (∃ known, t.itemFor? n = some known ∧ known.identity = a.identity ∧
        (Item.ToldApart (sources items) → known = a)) ∧
      t.names[n.head.action]? = some n.name ∧
      ∀ (j : Nat) m b, t.nodes[j]? = some m → (sources items)[j]? = some b →
        (n.head.action = m.head.action ↔ a.identity = b.identity) := by
  obtain rfl : compileItems items = t := by
    unfold compile at compiled
    rw [walked] at compiled
    exact Except.ok.inj compiled
  have registers := registers_compileItems items
  have registered : (compileItems items).items = (registerAll (sources items) {}).2.items :=
    congrArg Registry.items registers.registry
  have names : (compileItems items).names = (registerAll (sources items) {}).2.names :=
    congrArg Registry.names registers.registry
  have within := items_registerAll (sources items) {}
  rw [show ({} : Registry).items = [] from rfl, List.nil_append] at within
  have index {i : Nat} {n : Node} (found : (compileItems items).nodes[i]? = some n) :
      (registerAll (sources items) {}).1[i]? = some n.head.action := by
    rw [← registers.indices, List.getElem?_map, found]
    rfl
  refine ⟨fun earlier index later split => registerAll_next (registers.indices.symm.trans split),
    registered ▸ within, registered ▸ nodup_registerAll _ List.nodup_nil, registered ▸ identities_registerAll _,
    ?_, ?_, ?_⟩
  · rw [names, registered]
    have named : (registerAll (sources items) {}).2.Named := Named.registerAll (by simp [Named]) _
    rw [Registry.names, Registry.items, List.map_map]
    exact List.map_congr_left named
  · rw [← length_registerAll (sources items) {}, ← registers.indices, List.length_map]
  · intro i n a found source
    obtain ⟨_, e, own, there, same⟩ := getElem?_registerAll source {}
    obtain rfl := Option.some.inj ((index found).symm.trans own)
    have item : (registerAll (sources items) {}).2.items[n.head.action]? = some e.item := by
      simp [Registry.items, there]
    refine ⟨⟨e.item, (congrArg (·[n.head.action]?) registered).trans item, same, fun apart => ?_⟩, ?_,
      fun j m b found' source' => index_eq_iff source source' (index found) (index found')⟩
    · exact apart e.item (within.subset (List.mem_of_getElem? item)) a (List.mem_of_getElem? source) same
    · obtain ⟨e', there', name⟩ := registers.names n (List.mem_of_getElem? found)
      rw [registers.registry] at there'
      rw [names]
      simp [Registry.names, there', name]

/-- Two objects with the same content, and a third one: the second is met behind an output of the first, and
again in a group. -/
def twinItems : List Item :=
  let action (token : Nat) (label : String) : Item :=
    .leaf (.object token 0) (.function { label, signature := [], steps := [] } {})
  [action 0 "a", .mapping (.object 3 0) false [(.ofText "x", .list [action 1 "a", action 0 "a"])],
    .list [action 2 "b", action 1 "a"], action 0 "a"]

/-- Objects with the same content have indices of their own, which they keep wherever they are met again. -/
theorem twins_are_told_apart : ∃ t, compile (.list twinItems) = .ok t ∧
    t.nodes.map (·.head.action) = [0, 1, 0, 2, 1, 0] ∧
    t.items.map Item.identity = [.object 0 0, .object 1 0, .object 2 0] ∧
    ∀ (i : Nat) n known, t.nodes[i]? = some n → t.itemFor? n = some known →
      (sources twinItems)[i]? = some known := by
  have walked : (Item.list twinItems).walk = .ok twinItems := rfl
  have apart : Item.ToldApart (sources twinItems) := by
    intro i member j member' same
    simp only [twinItems, sources, sourcesFrom, if_true, sourcesOfOutputs, sourcesOfOutput, List.append_nil,
      List.mem_append, List.mem_cons, List.not_mem_nil, or_false] at member member'
    rcases member with rfl | (rfl | rfl) | (rfl | rfl) | rfl <;>
      rcases member' with rfl | (rfl | rfl) | (rfl | rfl) | rfl <;> simp_all [Item.identity]
  obtain ⟨-, -, -, objects, -, length, each⟩ := indices_follow_walk walked (t := compileItems twinItems) rfl
  refine ⟨_, rfl, rfl, objects.trans (by decide), fun i n known found own => ?_⟩
  have bound := (List.getElem?_eq_some_iff.mp found).1
  rw [length] at bound
  have source := List.getElem?_eq_getElem bound
  obtain ⟨⟨_, own', -, same⟩, -⟩ := each i n _ found source
  obtain rfl := Option.some.inj (own'.symm.trans own)
  rw [source, same apart]

end Graph

end Conductor
