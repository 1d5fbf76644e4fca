import Conductor.Proofs.Selection

/-!
# Addresses

The path of a node is its address: followed hop by hop from the root list it leads to that node, and no
other node has the same path. The walk through a tree meets every node that a run can come to, each once,
and in the order in which the nodes stand.
-/

namespace Conductor

inductive Spot where
  | list (entries : List Entry)
  | node (n : Node)

def Entry.spot : Entry → Spot
  | .node head outputs => .node ⟨head, outputs⟩
  | .nested entries => .list entries

/-- One hop: a position leads into a list, and the key of an output leads from a node into what it is
declared with. -/
def Spot.hop : Spot → Hop → Option Spot
  | .list entries, .entry i => entries[i]?.map Entry.spot
  | .node n, .output k =>
    match n.route? k with
    | some (_, .list entries) => some (.list entries)
    | _ => none
  | _, _ => none

/-- What a path leads to from the root list. -/
def Tree.follow (t : Tree) (p : Path) : Option Spot := p.foldlM Spot.hop (.list t.branches)

/-- Whether two hops are told to be the same: positions by number, keys as keys. -/
def Hop.Same : Hop → Hop → Prop
  | .entry i, .entry j => i = j
  | .output k, .output l => k.same l
  | _, _ => False

def Path.Same (p q : Path) : Prop := List.Forall₂ Hop.Same p q

/-- Whether the walk through a tree meets a node before another one. -/
def Tree.Precedes (t : Tree) (n m : Node) : Prop := [n, m].Sublist t.nodes

namespace Tree

open World

variable {t : Tree} {p q place : Path} {e x y : Entry} {n m : Node} {entries inner : List Entry} {i j : Nat}

/-! ### Following paths -/

theorem follow_append (h : Hop) : t.follow (p ++ [h]) = (t.follow p).bind (·.hop h) := by
  simp [follow, List.foldlM_append]

theorem route?_congr {k l : Key} (same : k.same l) : n.route? k = n.route? l := by
  have agree : (fun r : Key × Branch => r.1.same k) = fun r => r.1.same l := by
    funext r
    rw [Bool.eq_iff_iff, Key.same_iff, Key.same_iff, Key.same_iff.mp same]
  rw [Node.route?, Node.route?, agree]

theorem hop_congr {h h' : Hop} (same : h.Same h') (s : Spot) : s.hop h = s.hop h' := by
  cases h with
  | entry i =>
    cases h' with
    | entry j => rw [show i = j from same]
    | output _ => exact same.elim
  | output k =>
    cases h' with
    | entry _ => exact same.elim
    | output l =>
      cases s with
      | list _ => rfl
      | node n => rw [Spot.hop, Spot.hop, route?_congr same]

theorem follow_congr (same : p.Same q) : t.follow p = t.follow q := by
  unfold follow
  generalize Spot.list t.branches = s
  induction same generalizing s with
  | nil => rfl
  | cons first _ ih =>
    rw [List.foldlM_cons, List.foldlM_cons, hop_congr first]
    exact congrArg _ (funext ih)

theorem follow_into (there : t.follow p = some (.list entries)) (found : entries[i]? = some e) :
    t.follow (p ++ [.entry i]) = some e.spot := by
  simp [follow_append, there, Spot.hop, found]

theorem follow_output {key : Key} (there : t.follow p = some (.node n))
    (route : n.route? key = some (key, .list inner)) : t.follow (p ++ [.output key]) = some (.list inner) := by
  simp [follow_append, there, Spot.hop, route]

theorem Compiled.follow_branch (compiled : t.Compiled) (branch : t.BranchAt place entries) :
    t.follow place = some (.list entries) := by
  induction branch with
  | root => rfl
  | nested _ group member ih =>
    have found := follow_into (follow_into ih group) member
    rwa [List.append_assoc] at found
  | single outer entry route ih =>
    rw [compiled.single _ _ _ _ outer entry]
    exact follow_output (follow_into ih entry) route
  | grouped outer group member route ih =>
    have found := follow_into (follow_into ih group) member
    rw [List.append_assoc] at found
    rw [compiled.grouped _ _ _ _ _ _ outer group member]
    exact follow_output found route

theorem Compiled.follow_entry (compiled : t.Compiled) (found : t.EntryAt p e) : t.follow p = some e.spot := by
  cases found with
  | listed branch found => exact follow_into (compiled.follow_branch branch) found
  | member branch group found => exact follow_into (follow_into (compiled.follow_branch branch) group) found

/-! ### The walk -/

/-- The nodes that the walk meets below an entry stand in branch lists. -/
theorem places_of_walk (declares : t.Declares) :
    (∀ e : Entry, (∃ p, t.EntryAt p e) → ∀ n ∈ e.nodes, t.Places n) ∧
    (∀ entries : List Entry, (∀ e ∈ entries, ∃ p, t.EntryAt p e) → ∀ n ∈ nodesOf entries, t.Places n) ∧
    (∀ routes : List (Key × Branch), (∀ k inner, (k, .list inner) ∈ routes → ∃ p, t.BranchAt p inner) →
      ∀ n ∈ nodesOfRoutes routes, t.Places n) ∧
    (∀ b : Branch, (∀ inner, b = .list inner → ∃ p, t.BranchAt p inner) → ∀ n ∈ b.nodes, t.Places n) := by
  have listed {p : Path} {entries : List Entry} (branch : t.BranchAt p entries) :
      ∀ e ∈ entries, ∃ p, t.EntryAt p e := fun e member =>
    have ⟨i, found⟩ := List.getElem?_of_mem member
    ⟨_, .listed branch found⟩
  refine Entry.nodes.mutual_induct _ _ _ _ ?node ?nested ?list ?raw ?nil ?cons ?noRoutes ?route
  case node =>
    rintro head outputs ih ⟨p, found⟩ n within
    have placed : t.Places ⟨head, outputs⟩ := EntryAt.places (n := ⟨head, outputs⟩) found
    cases outputs with
    | none =>
      simp only [Entry.nodes, List.mem_singleton] at within
      exact within ▸ placed
    | some routes =>
      simp only [Entry.nodes] at within
      rcases List.mem_cons.mp within with rfl | below
      · exact placed
      · refine ih (fun k inner member => ?_) n below
        have known := placed.sublist.subset List.mem_cons_self
        have route := find?_route (declares _ known) member (Key.same_iff.mpr rfl)
        exact ⟨_, placed.branchAt route⟩
  case nested =>
    rintro entries ih ⟨p, found⟩ n within
    refine ih (fun e member => ?_) n (by simpa only [Entry.nodes] using within)
    obtain ⟨i, here⟩ := List.getElem?_of_mem member
    exact ⟨_, found.step here⟩
  case list =>
    intro entries ih branch n within
    obtain ⟨p, branch⟩ := branch entries rfl
    exact ih (listed branch) n (by simpa only [Branch.nodes] using within)
  case raw =>
    intro item _ n within
    simp [Branch.nodes] at within
  case nil =>
    intro _ n within
    simp [nodesOf] at within
  case cons =>
    intro e es ih ih' found n within
    rw [nodesOf] at within
    rcases List.mem_append.mp within with here | later
    · exact ih (found e List.mem_cons_self) n here
    · exact ih' (fun e member => found e (List.mem_cons_of_mem _ member)) n later
  case noRoutes =>
    intro _ n within
    simp [nodesOfRoutes] at within
  case route =>
    intro k b rest ih ih' branch n within
    rw [nodesOfRoutes] at within
    rcases List.mem_append.mp within with here | later
    · exact ih (fun inner same => branch k inner (same ▸ List.mem_cons_self)) n here
    · exact ih' (fun k inner member => branch k inner (List.mem_cons_of_mem _ member)) n later

theorem mem_nodes_iff (declares : t.Declares) : n ∈ t.nodes ↔ t.Places n := by
  refine ⟨fun member => ?_, fun placed => placed.sublist.subset List.mem_cons_self⟩
  refine (places_of_walk declares).2.1 t.branches (fun e member => ?_) n member
  obtain ⟨i, found⟩ := List.getElem?_of_mem member
  exact ⟨_, .listed .root found⟩

/-- The nodes of an earlier entry of a list come before those of a later one. -/
theorem sublist_of_lt (less : i < j) (first : entries[i]? = some x) (second : entries[j]? = some y)
    (within : n ∈ x.nodes) (within' : m ∈ y.nodes) : [n, m].Sublist (nodesOf entries) := by
  induction entries generalizing i j with
  | nil => cases first
  | cons e es ih =>
    obtain ⟨j, rfl⟩ : ∃ k, j = k + 1 := ⟨j - 1, by omega⟩
    rw [nodesOf]
    cases i with
    | zero =>
      obtain rfl := Option.some.inj first
      have second' : es[j]? = some y := second
      have later := (nodes_sublist second').subset within'
      exact (List.singleton_sublist.mpr within).append (List.singleton_sublist.mpr later)
    | succ i => exact (ih (by omega) first second).trans (List.sublist_append_right _ _)

theorem EntryAt.sublist (found : t.EntryAt p e) : e.nodes.Sublist t.nodes := by
  cases found with
  | listed branch found => exact (nodes_sublist found).trans branch.sublist
  | member branch group found =>
    have outer := (nodes_sublist group).trans branch.sublist
    simp only [Entry.nodes] at outer
    exact (nodes_sublist found).trans outer

theorem slots_of_compile {graph : Item} (compiled : Graph.compile graph = .ok t) :
    t.nodes.map Node.slot = List.range t.nodeCount := by
  obtain ⟨items, rfl⟩ := items_of_compile compiled
  rw [List.range_eq_range']
  exact (Graph.compile_numbered.1 [] false 0 items {}).1

theorem slot_lt_of_sublist {graph : Item} (compiled : Graph.compile graph = .ok t) (both : [n, m].Sublist t.nodes) :
    n.slot < m.slot := by
  have sorted : (t.nodes.map Node.slot).Pairwise (· < ·) := slots_of_compile compiled ▸ List.pairwise_lt_range
  simpa using sorted.sublist (both.map Node.slot)

/-- The path of each node of a compiled graph leads to that node and to no other one. The walk meets just
the nodes that a run can come to, numbers them one after the other, and meets each of them before the
nodes of its outputs, and these before those of the entries after it. A reset clears every one of them. -/
theorem paths_are_addresses {graph : Item} (compiled : Graph.compile graph = .ok t) (declares : t.Declares) :
    (∀ n ∈ t.nodes, t.follow n.path = some (.node n)) ∧
    (∀ n ∈ t.nodes, ∀ m ∈ t.nodes, n.path.Same m.path → n = m) ∧
    (∀ n, n ∈ t.nodes ↔ t.Places n) ∧
    t.nodes.map Node.slot = List.range t.nodeCount ∧
    (∀ n ∈ t.nodes, ∀ m ∈ n.below, t.Precedes n m) ∧
    (∀ (p : Path) (entries : List Entry) (i j : Nat) (x y : Entry) (n m : Node),
      t.BranchAt p entries ∨ t.EntryAt p (.nested entries) → i < j →
      entries[i]? = some x → entries[j]? = some y → n ∈ x.nodes → m ∈ y.nodes → t.Precedes n m) ∧
    ∀ w : World, w.nodes.size = t.nodeCount → ∀ n, t.Places n → w.resetNodes.nodes[n.slot]? = some {} := by
  have compiled' := compiled_of_compile compiled
  have leads (n : Node) (member : n ∈ t.nodes) : t.follow n.path = some (.node n) :=
    compiled'.follow_entry (((mem_nodes_iff declares).mp member).entryAt compiled')
  refine ⟨leads, fun n member m member' same => ?_, fun n => mem_nodes_iff declares,
    slots_of_compile compiled, fun n member m below => ?_, ?_, fun w size n placed => ?_⟩
  · have agree := (leads n member).symm.trans ((follow_congr same).trans (leads m member'))
    exact Spot.node.inj (Option.some.inj agree)
  · have whole := ((mem_nodes_iff declares).mp member).sublist
    exact ((List.singleton_sublist.mpr below).cons_cons n).trans whole
  · intro p entries i j x y n m found less first second within within'
    have inside : (nodesOf entries).Sublist t.nodes := by
      rcases found with branch | nested
      · exact branch.sublist
      · simpa only [Entry.nodes] using nested.sublist
    exact (sublist_of_lt less first second within within').trans inside
  · have bound := slot_lt_of_compile compiled ((mem_nodes_iff declares).mpr placed)
    rw [← size] at bound
    simp [resetNodes, bound]

/-- One action at six places: as a member of a group, in a sequence within the group, and behind both outputs of
the first. -/
def repeatingItems : List Item :=
  let a : Item := .leaf (.object 0 0) (.function { label := "a", signature := [], steps := [] } {})
  [a, .mapping (.object 1 0) false [(.ofText "x", .list [a]), (.ofText "y", .tuple [.list [a, .list [a]]])],
    .list [.list [a], a]]

/-- All six nodes of the one action are found at their paths, which differ, and are met one after the other. -/
theorem repeated_action_has_addresses : ∃ t, Graph.compile (.list repeatingItems) = .ok t ∧ t.Declares ∧
    t.items.length = 1 ∧ t.nodes.map Node.slot = [0, 1, 2, 3, 4, 5] ∧
    (∀ n ∈ t.nodes, t.follow n.path = some (.node n)) ∧
    ∃ n ∈ t.nodes, ∃ m ∈ t.nodes, n.slot ≠ m.slot ∧ ¬ n.path.Same m.path := by
  have compiled : Graph.compile (.list repeatingItems) = .ok (Graph.compileItems repeatingItems) := rfl
  have declares : (Graph.compileItems repeatingItems).Declares := by
    unfold Tree.Declares
    decide +kernel
  obtain ⟨leads, apart, -, slots, -⟩ := paths_are_addresses compiled declares
  refine ⟨_, compiled, declares, rfl, slots, leads, ?_⟩
  obtain ⟨n, member, here⟩ := List.mem_map.mp (slots ▸ List.mem_range.mpr (by decide +kernel) : 0 ∈ _)
  obtain ⟨m, member', there⟩ := List.mem_map.mp (slots ▸ List.mem_range.mpr (by decide +kernel) : 5 ∈ _)
  have other : n.slot ≠ m.slot := by rw [here, there]; decide
  exact ⟨n, member, m, member', other, fun same => other (congrArg Node.slot (apart n member m member' same))⟩

end Tree

end Conductor
