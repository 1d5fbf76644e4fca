import Conductor.Graph.Compile
import Conductor.Proofs.Sameness
import Mathlib.Data.List.Nodup

/-!
# Branch lists and their places

The branch lists of a tree are its root, the sequences nested in its groups, and the lists that
outputs lead to. In a compiled graph every node is told apart by its head, the path of a node says
where it stands, and a place is that of one branch list only.
-/

namespace Conductor

def Node.entry (n : Node) : Entry := .node n.head n.outputs

def Node.below (n : Node) : List Node := nodesOfRoutes n.routes

def Node.nodes (n : Node) : List Node := n :: n.below

/-- The members of a group that are nodes, or the node that an entry is. -/
def Entry.own : Entry → List Node
  | .node head outputs => [⟨head, outputs⟩]
  | .nested members => members.filterMap fun
    | .node head outputs => some ⟨head, outputs⟩
    | .nested _ => none

/-- Whether a path leads to a sequence: every entry leads from one kind of list to the other, and what
an output leads to is a sequence. -/
def Path.isSequence (path : Path) : Bool :=
  path.foldl (fun sequence hop => match hop with
    | .entry _ => !sequence
    | .output _ => true) true

namespace Tree

/-- The branch lists of a tree with their places. -/
inductive BranchAt (t : Tree) : Path → List Entry → Prop where
  | root : BranchAt t [] t.branches
  /-- A sequence nested in a group. -/
  | nested {place : Path} {entries members inner : List Entry} {i k : Nat}
      (outer : BranchAt t place entries) (group : entries[i]? = some (Entry.nested members))
      (member : members[k]? = some (Entry.nested inner)) :
      BranchAt t (place ++ [.entry i, .entry k]) inner
  /-- What an output of a node in a sequence leads to. -/
  | single {place : Path} {entries inner : List Entry} {i : Nat} {node : Node} {key : Key}
      (outer : BranchAt t place entries) (entry : entries[i]? = some node.entry)
      (route : node.route? key = some (key, .list inner)) :
      BranchAt t (node.path ++ [.output key]) inner
  /-- What an output of a member of a group leads to. -/
  | grouped {place : Path} {entries members inner : List Entry} {i k : Nat} {node : Node} {key : Key}
      (outer : BranchAt t place entries) (group : entries[i]? = some (Entry.nested members))
      (member : members[k]? = some node.entry) (route : node.route? key = some (key, .list inner)) :
      BranchAt t (node.path ++ [.output key]) inner

/-- Whether a node stands in a branch list of a tree, by itself or in a group. -/
def Places (t : Tree) (node : Node) : Prop :=
  ∃ (place : Path) (entries : List Entry) (i : Nat), t.BranchAt place entries ∧
    (entries[i]? = some node.entry ∨
      ∃ (members : List Entry) (k : Nat), entries[i]? = some (Entry.nested members) ∧ members[k]? = some node.entry)

structure Compiled (t : Tree) : Prop where
  /-- The path of a node says where it stands. -/
  single : ∀ (place : Path) (entries : List Entry) (i : Nat) (node : Node), t.BranchAt place entries →
    entries[i]? = some node.entry →
    node.path = place ++ [.entry i]
  grouped : ∀ (place : Path) (entries members : List Entry) (i k : Nat) (node : Node), t.BranchAt place entries →
    entries[i]? = some (Entry.nested members) → members[k]? = some node.entry →
      node.path = place ++ [.entry i, .entry k]
  /-- All nodes of an entry lie within the path that leads to the entry. -/
  within : ∀ (place : Path) (entries : List Entry) (i : Nat) (e : Entry) (node : Node),
    t.BranchAt place entries → entries[i]? = some e → node ∈ e.nodes → place ++ [.entry i] <+: node.path
  /-- The slots of nodes tell them apart. -/
  slots : (t.nodes.map Node.slot).Nodup

end Tree

/-! ### What compiling makes -/

namespace Graph

def Numbered (d : Draft) (nodes : List Node) (d' : Draft) : Prop :=
  nodes.map Node.slot = List.range' d.slots nodes.length ∧ d'.slots = d.slots + nodes.length

theorem Numbered.nil (d : Draft) : Numbered d [] d := by simp [Numbered]

theorem Numbered.append {d₁ d₂ d₃ : Draft} {nodes more : List Node} (h : Numbered d₁ nodes d₂)
    (h' : Numbered d₂ more d₃) : Numbered d₁ (nodes ++ more) d₃ := by
  refine ⟨?_, ?_⟩
  · rw [List.map_append, h.1, h'.1, h.2, List.length_append, List.range'_append_1]
  · rw [h'.2, h.2, List.length_append, Nat.add_assoc]

theorem numbered_addNode {d d' : Draft} {item : Item} {path : Path} {isAsync : Bool} {head : Head}
    (made : d.addNode item path isAsync = (head, d')) (outputs : Option (List (Key × Branch))) :
    head.path = path ∧ Numbered d [⟨head, outputs⟩] d' := by
  obtain ⟨rfl, rfl⟩ := Prod.mk.inj made
  exact ⟨rfl, rfl, rfl⟩

theorem compile_numbered :
    (∀ path isAsync position items d, Numbered d
      (nodesOf (compileList path isAsync position items d).1)
      (compileList path isAsync position items d).2) ∧
    (∀ path outputs d, Numbered d (nodesOfRoutes (compileOutputs path outputs d).1)
      (compileOutputs path outputs d).2) ∧
    (∀ path item d, Numbered d (compileOutput path item d).1.nodes (compileOutput path item d).2) := by
  refine compileList.mutual_induct _ _ _ ?listBehind ?tupleBehind ?raw ?nil ?list ?tuple ?owner ?leaf ?noOutputs
    ?output
  case listBehind | tupleBehind =>
    intro path items d entries d₁ same ih
    simp only [same] at ih
    simpa only [compileOutput, same, Branch.nodes] using ih
  case raw =>
    intro path item d other other'
    have raw : compileOutput path item d = (.raw item, d) := by
      unfold compileOutput
      split
      · exact (other _ rfl).elim
      · exact (other' _ rfl).elim
      · rfl
    simpa only [raw, Branch.nodes] using Numbered.nil d
  case nil =>
    intro path isAsync position d
    simpa only [compileList, nodesOf] using Numbered.nil d
  case list | tuple =>
    intro path isAsync position items rest d inner d₁ same entries d₂ same' ih ih'
    simp only [same] at ih
    simp only [same'] at ih'
    simpa only [compileList, same, same', nodesOf, Entry.nodes] using ih.append ih'
  case owner =>
    intro path isAsync position item id isProxy outputs rest d other other' head d₁ made routes d₂ same
      entries d₃ same' ih ih'
    simp only [same] at ih
    simp only [same'] at ih'
    have first := (numbered_addNode made (some routes)).2
    have node : compileList path isAsync position (item :: .mapping id isProxy outputs :: rest) d
        = (.node head (some routes) :: entries, d₃) := by
      rw [compileList.eq_4 _ _ _ _ _ _ _ _ _ other other']
      simp only [made, same, same']
    simpa only [node, nodesOf, Entry.nodes, List.cons_append, List.nil_append] using
      (first.append ih).append ih'
  case leaf =>
    intro path isAsync position item rest d other other' other'' head d₁ made entries d₂ same ih
    simp only [same] at ih
    have first := (numbered_addNode made none).2
    have node : compileList path isAsync position (item :: rest) d
        = (.node head none :: entries, d₂) := by
      rw [compileList.eq_5 _ _ _ _ _ _ other other' other'']
      simp only [made, same]
    simpa only [node, nodesOf, Entry.nodes, List.cons_append, List.nil_append] using first.append ih
  case noOutputs =>
    intro path d
    simpa only [compileOutputs, nodesOfRoutes] using Numbered.nil d
  case output =>
    intro path k item rest d branch d₁ same routes d₂ same' ih ih'
    simp only [same] at ih
    simp only [same'] at ih'
    simpa only [compileOutputs, same, same', nodesOfRoutes] using ih.append ih'

def Within (path : Path) (nodes : List Node) : Prop := ∀ n ∈ nodes, path <+: n.path

theorem Within.append {path : Path} {nodes more : List Node} (h : Within path nodes)
    (h' : Within path more) : Within path (nodes ++ more) :=
  fun n member => (List.mem_append.mp member).elim (h n) (h' n)

theorem Within.weaken {path further : Path} {nodes : List Node} (h : Within (path ++ further) nodes) :
    Within path nodes := fun n member => (List.prefix_append path further).trans (h n member)

theorem Within.self {path : Path} {head : Head} {outputs : Option (List (Key × Branch))}
    (own : path <+: head.path) : Within path [⟨head, outputs⟩] := by
  intro n member
  obtain rfl := List.mem_singleton.mp member
  exact own

theorem compile_within :
    (∀ path isAsync position items d, Within path
      (nodesOf (compileList path isAsync position items d).1)) ∧
    (∀ path outputs d, Within path (nodesOfRoutes (compileOutputs path outputs d).1)) ∧
    (∀ path item d, Within path (compileOutput path item d).1.nodes) := by
  refine compileList.mutual_induct _ _ _ ?listBehind ?tupleBehind ?raw ?nil ?list ?tuple ?owner ?leaf ?noOutputs
    ?output
  case listBehind | tupleBehind =>
    intro path items d entries d₁ same ih
    simp only [same] at ih
    simpa only [compileOutput, same, Branch.nodes] using ih
  case raw =>
    intro path item d other other'
    have raw : compileOutput path item d = (.raw item, d) := by
      unfold compileOutput
      split
      · exact (other _ rfl).elim
      · exact (other' _ rfl).elim
      · rfl
    simp only [raw, Branch.nodes]
    exact fun _ none => nomatch none
  case nil =>
    intro path isAsync position d
    simp only [compileList, nodesOf]
    exact fun _ none => nomatch none
  case list | tuple =>
    intro path isAsync position items rest d inner d₁ same entries d₂ same' ih ih'
    simp only [same] at ih
    simp only [same'] at ih'
    simpa only [compileList, same, same', nodesOf, Entry.nodes] using ih.weaken.append ih'
  case owner =>
    intro path isAsync position item id isProxy outputs rest d other other' head d₁ made routes d₂ same
      entries d₃ same' ih ih'
    have own := (numbered_addNode made (some routes)).1
    simp only [same] at ih
    rw [own] at ih
    simp only [same'] at ih'
    have node : compileList path isAsync position (item :: .mapping id isProxy outputs :: rest) d
        = (.node head (some routes) :: entries, d₃) := by
      rw [compileList.eq_4 _ _ _ _ _ _ _ _ _ other other']
      simp only [made, same, same']
    have first : Within path [⟨head, some routes⟩] := .self (own ▸ List.prefix_append _ _)
    simpa only [node, nodesOf, Entry.nodes, List.cons_append, List.nil_append] using
      (first.append ih.weaken).append ih'
  case leaf =>
    intro path isAsync position item rest d other other' other'' head d₁ made entries d₂ same ih
    simp only [same] at ih
    have own := (numbered_addNode made none).1
    have node : compileList path isAsync position (item :: rest) d
        = (.node head none :: entries, d₂) := by
      rw [compileList.eq_5 _ _ _ _ _ _ other other' other'']
      simp only [made, same]
    have first : Within path [⟨head, none⟩] := .self (own ▸ List.prefix_append _ _)
    simpa only [node, nodesOf, Entry.nodes, List.cons_append, List.nil_append] using first.append ih
  case noOutputs =>
    intro path d
    simp only [compileOutputs, nodesOfRoutes]
    exact fun _ none => nomatch none
  case output =>
    intro path k item rest d branch d₁ same routes d₂ same' ih ih'
    simp only [same] at ih
    simp only [same'] at ih'
    simpa only [compileOutputs, same, same', nodesOfRoutes] using ih.weaken.append ih'

def Makes (path : Path) (isAsync : Bool) (entries : List Entry) : Prop :=
  ∃ items d, (compileList path isAsync 0 items d).1 = entries

inductive Made (path : Path) (isAsync : Bool) : Entry → Prop where
  | nested {inner : List Entry} (made : Makes path (!isAsync) inner) : Made path isAsync (.nested inner)
  | node {head : Head} {outputs : Option (List (Key × Branch))} (own : head.path = path)
      (made : ∀ routes, outputs = some routes → ∃ os d, (compileOutputs path os d).1 = routes) :
      Made path isAsync (.node head outputs)

theorem made_of_compileList : ∀ (path : Path) (isAsync : Bool) (position : Nat) (items : List Item)
    (d : Draft) (i : Nat) (e : Entry), (compileList path isAsync position items d).1[i]? = some e →
      Made (path ++ [.entry (position + i)]) isAsync e := by
  -- the first entry is made of the item at hand, the others of the rest
  have step {path : Path} {isAsync : Bool} {position : Nat} {first : Entry} {rest : List Entry}
      (made : Made (path ++ [.entry position]) isAsync first)
      (others : ∀ (i : Nat) (e : Entry), rest[i]? = some e →
        Made (path ++ [.entry (position + 1 + i)]) isAsync e) (i : Nat) (e : Entry)
      (found : (first :: rest)[i]? = some e) : Made (path ++ [.entry (position + i)]) isAsync e := by
    cases i with
    | zero =>
      obtain rfl := Option.some.inj found
      exact made
    | succ i =>
      have later := others i e found
      rwa [Nat.add_assoc, Nat.add_comm 1 i] at later
  refine (compileList.mutual_induct (fun path isAsync position items d => ∀ (i : Nat) (e : Entry),
    (compileList path isAsync position items d).1[i]? = some e →
      Made (path ++ [.entry (position + i)]) isAsync e) (fun _ _ _ => True) (fun _ _ _ => True)
    ?listBehind ?tupleBehind ?raw ?nil ?list ?tuple ?owner ?leaf ?noOutputs ?output).1
  case listBehind | tupleBehind => exact fun _ _ _ _ _ _ _ => trivial
  case raw => exact fun _ _ _ _ _ => trivial
  case nil =>
    intro path isAsync position d i e found
    simp [compileList] at found
  case list | tuple =>
    intro path isAsync position items rest d inner d₁ same entries d₂ same' _ ih
    simp only [same'] at ih
    simp only [compileList, same, same']
    exact step (.nested ⟨items, d, by rw [same]⟩) ih
  case owner =>
    intro path isAsync position item id isProxy outputs rest d other other' head d₁ made routes d₂ same
      entries d₃ same' _ ih
    simp only [same'] at ih
    rw [compileList.eq_4 _ _ _ _ _ _ _ _ _ other other']
    simp only [made, same, same']
    have own := (numbered_addNode made none).1
    refine step (.node own fun rs found => ⟨outputs, d₁, ?_⟩) ih
    rw [← own, same]
    exact Option.some.inj found
  case leaf =>
    intro path isAsync position item rest d other other' other'' head d₁ made entries d₂ same ih
    simp only [same] at ih
    rw [compileList.eq_5 _ _ _ _ _ _ other other' other'']
    simp only [made, same]
    exact step (.node (numbered_addNode made none).1 fun rs found => nomatch found) ih
  case noOutputs => exact fun _ _ => trivial
  case output =>
    intros
    trivial

theorem made_of_makes {path : Path} {isAsync : Bool} {entries : List Entry} {i : Nat} {e : Entry}
    (made : Makes path isAsync entries) (found : entries[i]? = some e) :
    Made (path ++ [.entry i]) isAsync e := by
  obtain ⟨items, d, rfl⟩ := made
  have there := made_of_compileList _ _ _ _ _ _ _ found
  rwa [Nat.zero_add] at there

theorem within_of_made {path : Path} {isAsync : Bool} {e : Entry} (made : Made path isAsync e) :
    Within path e.nodes := by
  cases made with
  | nested inner =>
    obtain ⟨items, d, rfl⟩ := inner
    simpa only [Entry.nodes] using compile_within.1 path _ 0 items d
  | @node head outputs own routes =>
    have self : Within path [⟨head, outputs⟩] := .self (own ▸ List.prefix_rfl)
    cases outputs with
    | none => simpa only [Entry.nodes] using self
    | some rs =>
      obtain ⟨os, d, rfl⟩ := routes rs rfl
      have all := self.append (compile_within.2.1 path os d)
      simpa only [Entry.nodes, List.cons_append, List.nil_append] using all

/-- A branch list that an output leads to is made at a place of its own. -/
theorem makes_of_compileOutputs {path : Path} {k : Key} {inner : List Entry} {os : List (Key × Item)}
    {d : Draft} (member : (k, .list inner) ∈ (compileOutputs path os d).1) :
    Makes (path ++ [.output k]) false inner := by
  induction os generalizing d with
  | nil => simp [compileOutputs] at member
  | cons o rest ih =>
    obtain ⟨k', item⟩ := o
    simp only [compileOutputs] at member
    rcases List.mem_cons.mp member with here | later
    · obtain ⟨rfl, same⟩ := Prod.mk.inj here
      unfold compileOutput at same
      split at same
      · exact ⟨_, _, (Branch.list.inj same).symm⟩
      · exact ⟨_, _, (Branch.list.inj same).symm⟩
      · cases same
    · exact ih later

end Graph

namespace Tree

open Conductor.Graph

variable {t : Tree} {place place' : Path} {entries entries' : List Entry} {node : Node} {i : Nat}

theorem mem_routes {key declared : Key} {b : Branch} (route : node.route? key = some (declared, b)) :
    (declared, b) ∈ node.routes := List.mem_of_find?_eq_some route

theorem made_route {path : Path} {isAsync : Bool} {key : Key} {inner : List Entry}
    (made : Made path isAsync node.entry) (route : node.route? key = some (key, .list inner)) :
    node.path = path ∧ Makes (node.path ++ [.output key]) false inner := by
  have member := mem_routes route
  obtain ⟨head, outputs⟩ := node
  cases made with
  | node own routes =>
    cases outputs with
    | none => cases member
    | some rs =>
      obtain ⟨os, d, rfl⟩ := routes rs rfl
      have same : head.path = path := own
      subst same
      exact ⟨rfl, makes_of_compileOutputs member⟩

theorem BranchAt.makes {items : List Item} (branch : (compileItems items).BranchAt place entries) :
    Makes place false entries := by
  induction branch with
  | root => exact ⟨items, {}, rfl⟩
  | @nested place entries members inner i k _ group member ih =>
    cases made_of_makes ih group with
    | nested made =>
      cases made_of_makes made member with
      | nested made' =>
        rw [List.append_assoc] at made'
        exact made'
  | single _ entry route ih => exact (made_route (made_of_makes ih entry) route).2
  | grouped _ group member route ih =>
    cases made_of_makes ih group with
    | nested made => exact (made_route (made_of_makes made member) route).2

theorem path_of_made {path : Path} {isAsync : Bool} (made : Made path isAsync node.entry) :
    node.path = path := by
  obtain ⟨head, outputs⟩ := node
  cases made with
  | node own _ => exact own

theorem compiled_compileItems (items : List Item) : (compileItems items).Compiled where
  single place entries i node branch entry := path_of_made (made_of_makes branch.makes entry)
  grouped place entries members i k node branch group member := by
    cases made_of_makes branch.makes group with
    | nested made =>
      have own := path_of_made (made_of_makes made member)
      rwa [List.append_assoc] at own
  within place entries i e node branch found :=
    within_of_made (made_of_makes branch.makes found) node
  slots := by
    have numbered := (compile_numbered.1 [] false 0 items {}).1
    change ((nodesOf (compileList [] false 0 items {}).1).map Node.slot).Nodup
    rw [numbered]
    exact List.nodup_range'

theorem items_of_compile {graph : Item} (compiled : compile graph = .ok t) : ∃ items, t = compileItems items := by
  unfold compile at compiled
  cases walked : graph.walk with
  | error f =>
    rw [walked] at compiled
    cases compiled
  | ok items =>
    rw [walked] at compiled
    exact ⟨items, (Except.ok.inj compiled).symm⟩

theorem compiled_of_compile {graph : Item} (compiled : compile graph = .ok t) : t.Compiled := by
  obtain ⟨items, rfl⟩ := items_of_compile compiled
  exact compiled_compileItems items

theorem slot_lt_of_compile {graph : Item} (compiled : compile graph = .ok t) (member : node ∈ t.nodes) :
    node.slot < t.nodeCount := by
  obtain ⟨items, rfl⟩ := items_of_compile compiled
  have numbered := (compile_numbered.1 [] false 0 items {}).1
  have within := List.mem_map_of_mem (f := Node.slot) member
  change node.slot ∈ (nodesOf (compileList [] false 0 items {}).1).map Node.slot at within
  rw [numbered, List.mem_range'_1] at within
  exact Nat.lt_of_lt_of_eq within.2 (Nat.zero_add _)

/-! ### Places -/

theorem isSequence_append (path : Path) (i : Nat) :
    Path.isSequence (path ++ [.entry i]) = !path.isSequence := by
  simp [Path.isSequence, List.foldl_append]

theorem BranchAt.isSequence (branch : t.BranchAt place entries) : place.isSequence := by
  have output (path : Path) (key : Key) : Path.isSequence (path ++ [.output key]) := by
    simp [Path.isSequence, List.foldl_append]
  induction branch with
  | root => rfl
  | @nested place _ _ _ i k _ _ _ ih =>
    have split : place ++ [Hop.entry i, .entry k] = (place ++ [.entry i]) ++ [.entry k] := by simp
    rw [split, isSequence_append, isSequence_append, ih]
    rfl
  | single _ _ _ _ => exact output _ _
  | grouped _ _ _ _ _ => exact output _ _

/-- A sequence and an entry of it are told by the path of a node there. -/
theorem place_unique {path : Path} {j : Nat} (sequence : place.isSequence) (sequence' : place'.isSequence)
    (own : path = place ++ [.entry i] ∨ ∃ k, path = place ++ [.entry i, .entry k])
    (own' : path = place' ++ [.entry j] ∨ ∃ k, path = place' ++ [.entry j, .entry k]) :
    place = place' ∧ i = j := by
  -- one hop more turns a sequence into a group
  have never {p q : Path} {a b c : Nat} (h : p.isSequence) (h' : q.isSequence)
      (same : p ++ [.entry a] = q ++ [.entry b, .entry c]) : False := by
    have shifted : p ++ [Hop.entry a] = (q ++ [.entry b]) ++ [.entry c] := by simpa using same
    obtain ⟨rfl, -⟩ := List.append_inj' shifted rfl
    rw [isSequence_append, h'] at h
    cases h
  rcases own with rfl | ⟨k, rfl⟩ <;> rcases own' with same | ⟨k', same⟩
  · obtain ⟨places, hops⟩ := List.append_inj' same rfl
    simp only [List.cons.injEq, Hop.entry.injEq, and_true] at hops
    exact ⟨places, hops⟩
  · exact (never sequence sequence' same).elim
  · exact (never sequence' sequence same.symm).elim
  · obtain ⟨places, hops⟩ := List.append_inj' same rfl
    simp only [List.cons.injEq, Hop.entry.injEq, and_true] at hops
    exact ⟨places, hops.1⟩

theorem BranchAt.origin (branch : t.BranchAt place entries) :
    (place = [] ∧ entries = t.branches) ∨
    (∃ (outer : Path) (around members : List Entry) (i k : Nat), place = outer ++ [.entry i, .entry k] ∧
      t.BranchAt outer around ∧ around[i]? = some (Entry.nested members) ∧
        members[k]? = some (Entry.nested entries)) ∨
    ∃ node key, place = node.path ++ [.output key] ∧ t.Places node ∧
      node.route? key = some (key, .list entries) := by
  cases branch with
  | root => exact .inl ⟨rfl, rfl⟩
  | nested outer group member => exact .inr (.inl ⟨_, _, _, _, _, rfl, outer, group, member⟩)
  | single outer entry route =>
    exact .inr (.inr ⟨_, _, rfl, ⟨_, _, _, outer, .inl entry⟩, route⟩)
  | grouped outer group member route =>
    exact .inr (.inr ⟨_, _, rfl, ⟨_, _, _, outer, .inr ⟨_, _, group, member⟩⟩, route⟩)

theorem entry_injective {node node' : Node} (same : node.entry = node'.entry) : node = node' := by
  obtain ⟨head, outputs⟩ := node
  obtain ⟨head', outputs'⟩ := node'
  obtain ⟨rfl, rfl⟩ := Entry.node.inj same
  rfl

/-- A path is that of one node only, provided that shorter places are those of one branch list. -/
theorem Compiled.node_unique (compiled : t.Compiled) {node node' : Node} (placed : t.Places node)
    (placed' : t.Places node') (same : node.path = node'.path)
    (unique : ∀ (place : Path) (entries entries' : List Entry), place.length < node.path.length →
      t.BranchAt place entries → t.BranchAt place entries' → entries = entries') : node = node' := by
  obtain ⟨place, entries, i, branch, at'⟩ := placed
  obtain ⟨place', entries', i', branch', at''⟩ := placed'
  have own : node.path = place ++ [.entry i] ∨ ∃ k, node.path = place ++ [.entry i, .entry k] := by
    rcases at' with single | ⟨members, k, group, member⟩
    · exact .inl (compiled.single _ _ _ _ branch single)
    · exact .inr ⟨k, compiled.grouped _ _ _ _ _ _ branch group member⟩
  have own' : node.path = place' ++ [.entry i'] ∨
      ∃ k, node.path = place' ++ [.entry i', .entry k] := by
    rw [same]
    rcases at'' with single | ⟨members, k, group, member⟩
    · exact .inl (compiled.single _ _ _ _ branch' single)
    · exact .inr ⟨k, compiled.grouped _ _ _ _ _ _ branch' group member⟩
  obtain ⟨rfl, rfl⟩ := place_unique branch.isSequence branch'.isSequence own own'
  have shorter : place.length < node.path.length := by
    rcases own with own | ⟨k, own⟩ <;> simp [own]
  obtain rfl := unique place entries entries' shorter branch branch'
  rcases at' with single | ⟨members, k, group, member⟩ <;>
    rcases at'' with single' | ⟨members', k', group', member'⟩
  · exact entry_injective (Option.some.inj (single.symm.trans single'))
  · obtain ⟨head, outputs⟩ := node
    cases Option.some.inj (single.symm.trans group')
  · obtain ⟨head, outputs⟩ := node'
    cases Option.some.inj (single'.symm.trans group)
  · obtain rfl := Entry.nested.inj (Option.some.inj (group.symm.trans group'))
    have path := compiled.grouped _ _ _ _ _ _ branch group member
    have path' := compiled.grouped _ _ _ _ _ _ branch group' member'
    rw [same, path'] at path
    obtain ⟨-, hops⟩ := List.append_inj' path rfl
    simp only [List.cons.injEq, Hop.entry.injEq, true_and, and_true] at hops
    subst hops
    exact entry_injective (Option.some.inj (member.symm.trans member'))

theorem Compiled.unique (compiled : t.Compiled) (branch : t.BranchAt place entries)
    (branch' : t.BranchAt place entries') : entries = entries' := by
  induction size : place.length using Nat.strongRecOn generalizing place entries entries' with
  | ind n ih =>
    have shorter (p : Path) (more : List Entry) (more' : List Entry) (less : p.length < place.length)
        (here : t.BranchAt p more) (here' : t.BranchAt p more') : more = more' :=
      ih p.length (size ▸ less) here here' rfl
    rcases branch.origin with ⟨rfl, rfl⟩ | ⟨outer, around, members, i, k, rfl, outside, group, member⟩ |
      ⟨node, key, rfl, placed, route⟩
    · rcases branch'.origin with ⟨-, rfl⟩ | ⟨_, _, _, _, _, same, -⟩ | ⟨_, _, same, -⟩
      · rfl
      · simp at same
      · simp at same
    · rcases branch'.origin with ⟨same, -⟩ | ⟨outer', around', members', i', k', same, outside', group',
        member'⟩ | ⟨node', key', same, -⟩
      · simp at same
      · obtain ⟨rfl, hops⟩ := List.append_inj' same rfl
        simp only [List.cons.injEq, Hop.entry.injEq, and_true] at hops
        obtain ⟨rfl, rfl⟩ := hops
        obtain rfl := shorter outer around around' (by simp) outside outside'
        obtain rfl := Entry.nested.inj (Option.some.inj (group.symm.trans group'))
        exact Entry.nested.inj (Option.some.inj (member.symm.trans member'))
      · have split : outer ++ [Hop.entry i, .entry k] = (outer ++ [.entry i]) ++ [.entry k] := by simp
        rw [split] at same
        obtain ⟨-, hops⟩ := List.append_inj' same rfl
        cases hops
    · rcases branch'.origin with ⟨same, -⟩ | ⟨outer', around', members', i', k', same, -⟩ |
        ⟨node', key', same, placed', route'⟩
      · simp at same
      · have split : outer' ++ [Hop.entry i', .entry k'] = (outer' ++ [.entry i']) ++ [.entry k'] := by
          simp
        rw [split] at same
        obtain ⟨-, hops⟩ := List.append_inj' same rfl
        cases hops
      · obtain ⟨paths, hops⟩ := List.append_inj' same rfl
        obtain rfl : key = key' := by simpa using hops
        have fewer : node.path.length < (node.path ++ [Hop.output key]).length := by simp
        obtain rfl := compiled.node_unique placed placed' paths fun p more more' less =>
          shorter p more more' (Nat.lt_trans less fewer)
        have found := Option.some.inj (route.symm.trans route')
        simpa using found

/-! ### Nodes of branch lists -/

theorem nodes_sublist {e : Entry} (found : entries[i]? = some e) : e.nodes.Sublist (nodesOf entries) := by
  induction entries generalizing i with
  | nil => simp at found
  | cons first rest ih =>
    simp only [nodesOf]
    cases i with
    | zero =>
      obtain rfl := Option.some.inj found
      exact List.sublist_append_left _ _
    | succ i => exact (ih found).trans (List.sublist_append_right _ _)

theorem entry_of_mem {n : Node} (within : n ∈ nodesOf entries) :
    ∃ (i : Nat) (e : Entry), entries[i]? = some e ∧ n ∈ e.nodes := by
  induction entries with
  | nil => simp [nodesOf] at within
  | cons first rest ih =>
    rw [nodesOf] at within
    rcases List.mem_append.mp within with here | later
    · exact ⟨0, first, rfl, here⟩
    · obtain ⟨i, e, found, within⟩ := ih later
      exact ⟨i + 1, e, found, within⟩

theorem nodes_entry (node : Node) : node.entry.nodes = node.nodes := by
  obtain ⟨head, outputs⟩ := node
  cases outputs <;> simp [Node.entry, Entry.nodes, Node.nodes, Node.below, Node.routes, nodesOfRoutes]

theorem routes_sublist {routes : List (Key × Branch)} {key : Key} {b : Branch}
    (member : (key, b) ∈ routes) : b.nodes.Sublist (nodesOfRoutes routes) := by
  induction routes with
  | nil => cases member
  | cons r rest ih =>
    obtain ⟨k, b'⟩ := r
    simp only [nodesOfRoutes]
    rcases List.mem_cons.mp member with here | later
    · obtain ⟨-, rfl⟩ := Prod.mk.inj here
      exact List.sublist_append_left _ _
    · exact (ih later).trans (List.sublist_append_right _ _)

theorem route_sublist {key : Key} {inner : List Entry} {declared : Key}
    (route : node.route? key = some (declared, .list inner)) : (nodesOf inner).Sublist node.below := by
  have below : (Branch.list inner).nodes.Sublist node.below := routes_sublist (mem_routes route)
  simpa only [Branch.nodes] using below

theorem BranchAt.sublist (branch : t.BranchAt place entries) : (nodesOf entries).Sublist t.nodes := by
  have below {node : Node} (entry : node.entry.nodes.Sublist t.nodes) : node.below.Sublist t.nodes := by
    rw [nodes_entry] at entry
    exact (List.sublist_cons_self _ _).trans entry
  have member {members : List Entry} {e : Entry} {k : Nat}
      (group : (Entry.nested members).nodes.Sublist t.nodes) (found : members[k]? = some e) :
      e.nodes.Sublist t.nodes := by
    simp only [Entry.nodes] at group
    exact (nodes_sublist found).trans group
  induction branch with
  | root => exact .refl _
  | nested _ group found ih =>
    have inner := member ((nodes_sublist group).trans ih) found
    simpa only [Entry.nodes] using inner
  | single _ entry route ih => exact (route_sublist route).trans (below ((nodes_sublist entry).trans ih))
  | grouped _ group found route ih =>
    exact (route_sublist route).trans (below (member ((nodes_sublist group).trans ih) found))

theorem Places.sublist (placed : t.Places node) : node.nodes.Sublist t.nodes := by
  obtain ⟨place, entries, i, branch, here | ⟨members, k, group, member⟩⟩ := placed
  · exact nodes_entry node ▸ (nodes_sublist here).trans branch.sublist
  · have within := (nodes_sublist group).trans branch.sublist
    simp only [Entry.nodes] at within
    exact nodes_entry node ▸ (nodes_sublist member).trans within

theorem Compiled.eq_of_slot (compiled : t.Compiled) {node node' : Node} (member : node ∈ t.nodes)
    (member' : node' ∈ t.nodes) (same : node.slot = node'.slot) : node = node' :=
  List.inj_on_of_nodup_map compiled.slots member member' same

theorem Compiled.eq_of_head (compiled : t.Compiled) {node node' : Node} (member : node ∈ t.nodes)
    (member' : node' ∈ t.nodes) (same : node.head = node'.head) : node = node' :=
  compiled.eq_of_slot member member' (congrArg Head.slot same)

end Tree

/-! ### Keys of outputs -/

theorem Node.route?_declared {node : Node} {key declared : Key} {b : Branch}
    (route : node.route? key = some (declared, b)) : node.route? declared = some (declared, b) := by
  unfold Node.route? at route ⊢
  have found : declared.same key := by simpa using List.find?_some route
  have same : (fun r : Key × Branch => r.1.same declared) = fun r => r.1.same key := by
    funext r
    rw [Bool.eq_iff_iff, Key.same_iff, Key.same_iff, Key.same_iff.mp found]
  rw [same]
  exact route

end Conductor
