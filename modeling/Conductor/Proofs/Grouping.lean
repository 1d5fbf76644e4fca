import Mathlib.Data.List.Sort
import Conductor.Proofs.Lifecycle
import Conductor.Proofs.Punctual
import Conductor.Proofs.Refinement

/-!
# Lists and groups

A list of actions runs as a sequence at the root of a graph, and as a group when it is nested there. Both graphs
have the same nodes but for their paths. When the actions are punctual, and report the same in both runs, these
merge the same payloads in the same order, so that the args end up the same, with the keys in the same order.
-/

namespace Conductor

/-! ### The same items at two places -/

namespace Graph

/-- Compiling makes the same of items wherever they stand, but for the paths of nodes and for how these are
called. -/
theorem compile_bare :
    (∀ path isAsync position items d, ∀ path' isAsync' position',
      bareOf (compileList path isAsync position items d).1 = bareOf (compileList path' isAsync' position' items d).1 ∧
        (compileList path isAsync position items d).2 = (compileList path' isAsync' position' items d).2) ∧
    (∀ path outputs d, ∀ path',
      bareRoutes (compileOutputs path outputs d).1 = bareRoutes (compileOutputs path' outputs d).1 ∧
        (compileOutputs path outputs d).2 = (compileOutputs path' outputs d).2) ∧
    (∀ path item d, ∀ path', (compileOutput path item d).1.bare = (compileOutput path' item d).1.bare ∧
      (compileOutput path item d).2 = (compileOutput path' item d).2) := by
  refine compileList.mutual_induct _ _ _ ?listBehind ?tupleBehind ?raw ?nil ?list ?tuple ?owner ?leaf
    ?noOutputs ?output
  case listBehind | tupleBehind =>
    intro path items d entries d₁ same ih path'
    simp only [same] at ih
    obtain ⟨first, rfl⟩ := ih path' false 0
    simp only [compileOutput, same, Branch.bare, first]
    trivial
  case raw =>
    intro path item d other other' path'
    rw [compileOutput.eq_3 _ _ _ other other', compileOutput.eq_3 _ _ _ other other']
    trivial
  case nil =>
    intro path isAsync position d path' isAsync' position'
    simp only [compileList]
    trivial
  case list | tuple =>
    intro path isAsync position items rest d inner d₁ same entries d₂ same' ih ih' path' isAsync' position'
    simp only [same] at ih
    simp only [same'] at ih'
    obtain ⟨first, rfl⟩ := ih (path' ++ [.entry position']) (!isAsync') 0
    obtain ⟨others, rfl⟩ := ih' path' isAsync' (position' + 1)
    simp only [compileList, same, same', bareOf, Entry.bare, first, others]
    trivial
  case owner =>
    intro path isAsync position item id isProxy outputs rest d other other' head d₁ made routes d₂ same
      entries d₃ same' ih ih' path' isAsync' position'
    simp only [same] at ih
    simp only [same'] at ih'
    obtain ⟨rfl, rfl⟩ := Prod.mk.inj made
    obtain ⟨first, rfl⟩ := ih (path' ++ [.entry position'])
    obtain ⟨others, rfl⟩ := ih' path' isAsync' (position' + 1)
    rw [compileList.eq_4 _ _ _ _ _ _ _ _ _ other other', compileList.eq_4 _ _ _ _ _ _ _ _ _ other other']
    simp only [made, same, same', bareOf, Entry.bare, first, others]
    trivial
  case leaf =>
    intro path isAsync position item rest d other other' other'' head d₁ made entries d₂ same ih
      path' isAsync' position'
    simp only [same] at ih
    obtain ⟨rfl, rfl⟩ := Prod.mk.inj made
    obtain ⟨others, rfl⟩ := ih path' isAsync' (position' + 1)
    rw [compileList.eq_5 _ _ _ _ _ _ other other' other'', compileList.eq_5 _ _ _ _ _ _ other other' other'']
    simp only [made, same, bareOf, Entry.bare, others]
    trivial
  case noOutputs =>
    intro path d path'
    simp only [compileOutputs]
    trivial
  case output =>
    intro path k item rest d branch d₁ same routes d₂ same' ih ih' path'
    simp only [same] at ih
    simp only [same'] at ih'
    obtain ⟨first, rfl⟩ := ih (path' ++ [.output k])
    obtain ⟨others, rfl⟩ := ih' path'
    simp only [compileOutputs, same, same', bareRoutes, first, others]
    trivial

theorem compileList_nodes {path : Path} {isAsync : Bool} {position : Nat} {items : List Item} {d : Draft}
    (actions : ∀ i ∈ items, ∀ inner, i ≠ .list inner ∧ i ≠ .tuple inner) :
    ∀ e ∈ (compileList path isAsync position items d).1, ∃ n : Node, e = n.entry := by
  revert actions
  refine (compileList.mutual_induct (fun path isAsync position items d =>
    (∀ i ∈ items, ∀ inner, i ≠ .list inner ∧ i ≠ .tuple inner) →
      ∀ e ∈ (compileList path isAsync position items d).1, ∃ n : Node, e = n.entry) (fun _ _ _ => True)
    (fun _ _ _ => True) ?listBehind ?tupleBehind ?raw ?nil ?list ?tuple ?owner ?leaf ?noOutputs ?output).1
    path isAsync position items d
  case listBehind | tupleBehind => exact fun _ _ _ _ _ _ _ => trivial
  case raw => exact fun _ _ _ _ _ => trivial
  case nil =>
    intro path isAsync position d actions e member
    simp [compileList] at member
  case list =>
    intro path isAsync position items rest d inner d₁ same entries d₂ same' ih ih' actions
    exact ((actions _ List.mem_cons_self items).1 rfl).elim
  case tuple =>
    intro path isAsync position items rest d inner d₁ same entries d₂ same' ih ih' actions
    exact ((actions _ List.mem_cons_self items).2 rfl).elim
  case owner =>
    intro path isAsync position item id isProxy outputs rest d other other' head d₁ made routes d₂ same
      entries d₃ same' ih ih' actions e member
    rw [compileList.eq_4 _ _ _ _ _ _ _ _ _ other other'] at member
    simp only [made, same, same'] at member ih'
    rcases List.mem_cons.mp member with rfl | member
    · exact ⟨⟨head, some routes⟩, rfl⟩
    · exact ih' (fun x there => actions x (List.mem_cons_of_mem _ (List.mem_cons_of_mem _ there))) e member
  case leaf =>
    intro path isAsync position item rest d other other' other'' head d₁ made entries d₂ same ih actions e member
    rw [compileList.eq_5 _ _ _ _ _ _ other other' other''] at member
    simp only [made, same] at member ih
    rcases List.mem_cons.mp member with rfl | member
    · exact ⟨⟨head, none⟩, rfl⟩
    · exact ih (fun x there => actions x (List.mem_cons_of_mem _ there)) e member
  case noOutputs => exact fun _ _ => trivial
  case output => exact fun _ _ _ _ _ _ _ _ _ _ _ _ _ => trivial

end Graph

/-- What a node is, apart from its path and from how it is called. -/
def Node.bare (n : Node) : Node := ⟨{ n.head with path := [], isAsync := false }, n.outputs.map bareRoutes⟩

theorem nodes_bare :
    (∀ e : Entry, e.bare.nodes = e.nodes.map Node.bare) ∧
    (∀ entries : List Entry, nodesOf (bareOf entries) = (nodesOf entries).map Node.bare) ∧
    (∀ routes : List (Key × Branch), nodesOfRoutes (bareRoutes routes) = (nodesOfRoutes routes).map Node.bare) ∧
    (∀ b : Branch, b.bare.nodes = b.nodes.map Node.bare) := by
  refine Entry.nodes.mutual_induct _ _ _ _ ?node ?nested ?list ?raw ?nil ?cons ?noRoutes ?route
  case node =>
    intro head outputs ih
    cases outputs with
    | none => rfl
    | some routes =>
      rw [Entry.bare, Entry.nodes, Entry.nodes, List.map_cons]
      exact congrArg _ ih
  case nested =>
    intro entries ih
    rw [Entry.bare, Entry.nodes, Entry.nodes, ih]
  case list =>
    intro entries ih
    rw [Branch.bare, Branch.nodes, Branch.nodes, ih]
  case raw =>
    intro item
    rfl
  case nil =>
    rfl
  case cons =>
    intro e es ih ih'
    rw [bareOf, nodesOf, nodesOf, List.map_append, ih, ih']
  case noRoutes =>
    rfl
  case route =>
    intro k b rest ih ih'
    rw [bareRoutes, nodesOfRoutes, nodesOfRoutes, List.map_append, ih, ih']

theorem nodes_bare_congr {entries entries' : List Entry}
    (same : entries.map Entry.bare = entries'.map Entry.bare) :
    (nodesOf entries).map Node.bare = (nodesOf entries').map Node.bare := by
  rw [← nodes_bare.2.1, ← nodes_bare.2.1, bareOf_eq_map, bareOf_eq_map, same]

theorem Node.slot_of_bare {n m : Node} (same : n.bare = m.bare) : n.slot = m.slot := by
  show n.bare.head.slot = m.bare.head.slot
  rw [same]

theorem Node.routes_of_bare {n m : Node} (same : n.bare = m.bare) :
    n.routes.map (fun r => (r.1, r.2.bare)) = m.routes.map fun r => (r.1, r.2.bare) := by
  have routes (n : Node) : n.bare.routes = n.routes.map fun r => (r.1, r.2.bare) := by
    obtain ⟨head, outputs⟩ := n
    cases outputs <;> simp [Node.bare, Node.routes]
  rw [← routes, ← routes, same]

/-- A tree whose root list is the group of what the other one has at its root, apart from paths. -/
def Tree.Groups (t t' : Tree) : Prop :=
  ∃ members : List Entry, t.branches = [.nested members] ∧
    members.map Entry.bare = t'.branches.map Entry.bare

namespace Tree.Groups

variable {t t' : Tree} {n n' : Node}

theorem nodes (groups : t.Groups t') : t.nodes.map Node.bare = t'.nodes.map Node.bare := by
  obtain ⟨members, root, same⟩ := groups
  have inner : t.nodes = nodesOf members := by simp [Tree.nodes, root, nodesOf, Entry.nodes]
  rw [inner, Tree.nodes, nodes_bare_congr same]

theorem corresponding (groups : t.Groups t') (known : n ∈ t'.nodes) : ∃ m ∈ t.nodes, m.bare = n.bare := by
  have there : n.bare ∈ t.nodes.map Node.bare := groups.nodes ▸ List.mem_map_of_mem known
  simpa using there

theorem declares (groups : t.Groups t') (declares : t'.Declares) : t.Declares := by
  intro n known
  have there : n.bare ∈ t'.nodes.map Node.bare := groups.nodes ▸ List.mem_map_of_mem known
  obtain ⟨m, member, same⟩ := List.mem_map.mp there
  have names (n : Node) : n.outputNames = (n.routes.map fun r => (r.1, r.2.bare)).map (·.1) := by
    simp [Node.outputNames]
  rw [names, ← Node.routes_of_bare same, ← names]
  exact declares m member

end Tree.Groups

theorem Graph.groups_of_compile {items : List Item} : (compileItems [.list items]).Groups (compileItems items) := by
  refine ⟨(compileList [.entry 0] true 0 items {}).1, rfl, ?_⟩
  have same := (compile_bare.1 [.entry 0] true 0 items {} [] false 0).1
  rwa [bareOf_eq_map, bareOf_eq_map] at same

/-! ### The same payloads in the same order -/

namespace Entries

variable {R : Value → Value → Prop} {target target' source source' : Entries} {k k' : Key} {v v' : Value}

theorem Rel.insert (rel : Rel R target target') (keys : k.same k') (values : R v v') :
    Rel R (target.insert k v) (target'.insert k' v') := by
  unfold Rel at rel ⊢
  induction rel with
  | nil => exact .cons ⟨keys, values⟩ .nil
  | @cons e e' rest rest' both others ih =>
    have agree : e.1.same k = e'.1.same k' := by
      rw [Bool.eq_iff_iff, Key.same_iff, Key.same_iff, Key.same_iff.mp both.1, Key.same_iff.mp keys]
    unfold Entries.insert
    rw [agree]
    split
    · exact .cons ⟨both.1, values⟩ others
    · exact .cons both ih

theorem Rel.merge (rel : Rel R target target') (rel' : Rel R source source') :
    Rel R (target.merge source) (target'.merge source') :=
  List.rel_foldl (fun _ _ before _ _ both => Rel.insert before both.1 both.2) rel rel'

end Entries

theorem forall₂_of_map_eq {α β γ : Type} {f : α → γ} {g : β → γ} {S : α → β → Prop} {l : List α}
    {l' : List β} (same : l.map f = l'.map g) (related : ∀ a ∈ l, ∀ b ∈ l', f a = g b → S a b) :
    List.Forall₂ S l l' := by
  induction l generalizing l' with
  | nil =>
    obtain rfl := List.map_eq_nil_iff.mp same.symm
    exact .nil
  | cons a rest ih =>
    obtain ⟨b, rest', rfl, first, others⟩ := List.map_eq_cons_iff.mp same.symm
    refine .cons (related a List.mem_cons_self b List.mem_cons_self first.symm) (ih others.symm ?_)
    exact fun x there y there' => related x (List.mem_cons_of_mem _ there) y (List.mem_cons_of_mem _ there')

namespace World

variable {plan plan' : Plan} {w w' : World} {run run' : RunId} {R : Value → Value → Prop}
  {entries entries' : Entries} {n n' : Node}

theorem mem_slots_mergers {slot : Nat} : slot ∈ (mergers run w.notes).map (·.1) ↔ w.Executes run slot := by
  rw [List.mem_map]
  constructor
  · rintro ⟨⟨slot, payload⟩, member, rfl⟩
    obtain ⟨h, r, own, completed⟩ := mem_mergers.mp member
    exact ⟨h, r, payload, own, completed⟩
  · rintro ⟨h, r, payload, own, completed⟩
    exact ⟨(slot, payload), mem_mergers.mpr ⟨h, r, own, completed⟩, rfl⟩

/-- Runs that agree and execute the same nodes end up with the same args, when what they merge is in the order of
the walk. -/
theorem Agrees.tally (agrees : w.Agrees R run w' run')
    (executes : ∀ slot, w.Executes run slot ↔ w'.Executes run' slot)
    (sorted : (mergers run w.notes).Pairwise (·.1 < ·.1)) (sorted' : (mergers run' w'.notes).Pairwise (·.1 < ·.1))
    (given : Entries.Rel R entries entries') :
    Entries.Rel R (tally run entries w.notes) (tally run' entries' w'.notes) := by
  have slots : (mergers run w.notes).map (·.1) = (mergers run' w'.notes).map (·.1) := by
    refine (List.pairwise_map.mpr sorted).eq_of_mem_iff (List.pairwise_map.mpr sorted') fun slot => ?_
    rw [mem_slots_mergers, mem_slots_mergers, executes]
  have related : List.Forall₂ (fun x y : Nat × Entries => Entries.Rel R x.2 y.2) (mergers run w.notes)
      (mergers run' w'.notes) := by
    refine forall₂_of_map_eq slots fun x there y there' same => ?_
    obtain ⟨h, r, own, completed⟩ := mem_mergers.mp there
    obtain ⟨h', r', own', completed'⟩ := mem_mergers.mp there'
    exact (agrees _ _ _ _ _ _ (own.trans (same.trans own'.symm)) completed completed').2
  rw [World.tally, World.tally, payloads_eq_mergers, payloads_eq_mergers]
  refine List.rel_foldl (R := Entries.Rel R) (fun _ _ before _ _ both => Entries.Rel.merge before both) given ?_
  rw [List.forall₂_map_left_iff, List.forall₂_map_right_iff]
  exact related

/-! ### The same nodes -/

/-- Whether nodes complete in two runs with the same outputs, and with payloads that are told to be the same, as
are the values in these. -/
structure Repeats (R : Value → Value → Prop) (w : World) (run : RunId) (w' : World) (run' : RunId) : Prop where
  agrees : w.Agrees R run w' run'
  payloads : ∀ h r payload h' r' payload', h.slot = h'.slot → (run, .completed h r payload) ∈ w.notes →
    (run', .completed h' r' payload') ∈ w'.notes → R r.payload r'.payload

/-- Whether two nodes show the same of their execution: whether it took place, and with which output. -/
structure Resembles (R : Value → Value → Prop) (s s' : NodeState) : Prop where
  executed : s.executed = s'.executed
  path : s.outputPath = s'.outputPath
  output : R s.output s'.output ∨ s.output = .atom .null ∧ s'.output = .atom .null

theorem Lived.unexecuted {notes : List Note} {slot : Nat} {s : NodeState} (lived : Lived plan run notes slot s)
    (none : ¬ s.IsAt .executed) : s.executed = false ∧ s.output = .atom .null ∧ s.outputPath = .atom .null := by
  cases lived with
  | idle _ _ => exact ⟨rfl, rfl, rfl⟩
  | executing _ _ _ => exact ⟨rfl, rfl, rfl⟩
  | executed _ _ _ _ => exact (none ⟨rfl, rfl⟩).elim

theorem Sole.lived {graph : Item} (sole : Sole plan run w) (compiled : Graph.compile graph = .ok plan.tree)
    (known : n ∈ plan.tree.nodes) : Lived plan run w.course n.slot (w.nodeState n) := by
  have tree := Tree.compiled_of_compile compiled
  obtain ⟨u, v, t, given, stack, reached, sized, starting, free, started, new, rfl, calm⟩ := sole
  have begun : Reachable plan v := reached.move (.stepped started)
  have alone := Alone.start reached sized starting free started new
  have traced := Traced.calms lived_traceable calm begun tree alone
    (traced_start lived_traceable reached starting started new).1
  have bound := Tree.slot_lt_of_compile compiled known
  rw [← (Alone.calms calm begun tree alone).2.size] at bound
  exact traced n.slot _ (by simp [nodeState, bound])

theorem Lived.executes_iff (lived : Lived plan run w.course n.slot (w.nodeState n)) :
    (w.nodeState n).IsAt .executed ↔ w.Executes run n.slot := by
  rw [lived.completed_iff]
  constructor
  · exact fun ⟨h, r, payload, own, completed⟩ => ⟨h, r, payload, own, List.mem_of_mem_filter completed⟩
  · exact fun ⟨h, r, payload, own, completed⟩ => ⟨h, r, payload, own, List.mem_filter.mpr ⟨completed, rfl⟩⟩

/-- Nodes with the same slot show the same of runs that repeat each other. -/
theorem Repeats.resembles (repeats : w.Repeats R run w' run')
    (executes : ∀ slot, w.Executes run slot ↔ w'.Executes run' slot) (slot : n.slot = n'.slot)
    (lived : Lived plan run w.course n.slot (w.nodeState n))
    (lived' : Lived plan' run' w'.course n'.slot (w'.nodeState n')) :
    Resembles R (w.nodeState n) (w'.nodeState n') := by
  have both : (w.nodeState n).IsAt .executed ↔ (w'.nodeState n').IsAt .executed := by
    rw [lived.executes_iff, lived'.executes_iff, executes, slot]
  by_cases done : (w.nodeState n).IsAt .executed
  · have done' := both.mp done
    obtain ⟨h, r, payload, own, completed, output, path⟩ := lived.output done
    obtain ⟨h', r', payload', own', completed', output', path'⟩ := lived'.output done'
    have same : h.slot = h'.slot := own.trans (slot.trans own'.symm)
    have noted := List.mem_of_mem_filter completed
    have noted' := List.mem_of_mem_filter completed'
    refine ⟨done.2.trans done'.2.symm, ?_, .inl ?_⟩
    · rw [path, path']
      exact (repeats.agrees _ _ _ _ _ _ same noted noted').1
    · rw [output, output']
      exact repeats.payloads _ _ _ _ _ _ same noted noted'
  · obtain ⟨none, output, path⟩ := lived.unexecuted done
    obtain ⟨none', output', path'⟩ := lived'.unexecuted (mt both.mpr done)
    exact ⟨none.trans none'.symm, path.trans path'.symm, .inr ⟨output, output'⟩⟩

/-! ### A group and a list -/

section

variable (groups : plan.tree.Groups plan'.tree)
include groups

theorem executes_iff_of_groups (compiled : plan.tree.Compiled) (compiled' : plan'.tree.Compiled)
    (execution : Execution plan run entries w) (execution' : Execution plan' run' entries' w')
    (concur : w.Concur run w' run') (slot : Nat) : w.Executes run slot ↔ w'.Executes run' slot := by
  obtain ⟨members, root, same⟩ := groups
  constructor
  · refine execution.executes compiled concur fun e member => ?_
    obtain rfl : e = .nested members := by simpa [root] using member
    refine Matched.nested fun e member => ?_
    obtain ⟨k, found⟩ := List.getElem?_of_mem member
    obtain ⟨e', there, bare⟩ := matched_of_getElem? same.symm found
    exact ⟨e', bare, execution'.roots compiled' e' (List.mem_of_getElem? there)⟩
  · refine execution'.executes compiled' concur.symm fun e member => ?_
    obtain ⟨k, found⟩ := List.getElem?_of_mem member
    obtain ⟨e', there, bare⟩ := matched_of_getElem? same found
    have done := execution.roots compiled (.nested members) (by simp [root])
    obtain ⟨x, matches', done⟩ := done.matched.step there
    exact ⟨x, matches'.trans bare, done⟩

/-- What a run of the list selects has no nested list in it, if what the run of the group selects has none. -/
theorem taken_of_groups (compiled : plan.tree.Compiled) (reached : Reachable plan w) (agrees : w.Agrees R run w' run')
    (executes : ∀ slot, w.Executes run slot ↔ w'.Executes run' slot)
    (taken : ∀ n ∈ plan.tree.nodes, ∀ r payload key inner, (run, .completed n.head r payload) ∈ w.notes →
      n.Selects r key inner → ∀ e ∈ inner, ∃ m : Node, e = m.entry) :
    ∀ n ∈ plan'.tree.nodes, ∀ r payload key inner, (run', .completed n.head r payload) ∈ w'.notes →
      n.Selects r key inner → ∀ e ∈ inner, ∃ m : Node, e = m.entry := by
  intro n known r payload key inner completed' selects e member
  obtain ⟨m, known', bare⟩ := groups.corresponding known
  obtain ⟨h, r', payload', own, completed⟩ := (executes n.slot).mpr ⟨n.head, r, payload, rfl, completed'⟩
  obtain ⟨m', rfl, stood⟩ := reached.completed_stood compiled completed
  obtain rfl := compiled.eq_of_slot stood.mem known' (own.trans (Node.slot_of_bare bare).symm)
  obtain ⟨some, reported, found, route⟩ := selects.of_path (agrees _ _ _ _ _ _ own completed completed').1.symm
  obtain ⟨inner', route', lists⟩ := Node.route?_matched (Node.routes_of_bare bare) route
  obtain ⟨k, there⟩ := List.getElem?_of_mem member
  obtain ⟨e', there', matches'⟩ := matched_of_getElem? lists there
  have selects : m'.Selects r' key inner' := ⟨some, reported, found, route'⟩
  obtain ⟨o, rfl⟩ := taken m' known' r' payload' key inner' completed selects e' (List.mem_of_getElem? there')
  obtain ⟨o', rfl, -⟩ := Entry.bare_eq_entry matches'.symm
  exact ⟨o', rfl⟩

end

/-- A group of actions and the list of them come to the same when the actions do their part in their calls and
do it the same way in both runs: both runs resolve, with the same args in the same order, and the nodes show
the same. -/
theorem group_agrees_with_list {items : List Item}
    (actions : ∀ i ∈ items, ∀ inner, i ≠ .list inner ∧ i ≠ .tuple inner)
    (grouped : Graph.compile (.list [.list items]) = .ok plan.tree)
    (listed : Graph.compile (.list items) = .ok plan'.tree) (declares : plan'.tree.Declares)
    (punctual : Punctual plan run entries w) (punctual' : Punctual plan' run' entries' w')
    (given : Entries.Rel R entries entries') (repeats : w.Repeats R run w' run')
    (taken : ∀ n ∈ plan.tree.nodes, ∀ r payload key inner, (run, .completed n.head r payload) ∈ w.notes →
      n.Selects r key inner → ∀ e ∈ inner, ∃ m : Node, e = m.entry) :
    (∃ ms, w.status run = .resolved ms) ∧ (∃ ms, w'.status run' = .resolved ms) ∧
    Entries.Rel R (w.heap.dict (w.argsOf run)) (w'.heap.dict (w'.argsOf run')) ∧
    (Sole plan run w → Sole plan' run' w' → List.Forall₂ (fun n n' => n.bare = n'.bare ∧
      Resembles R (w.nodeState n) (w'.nodeState n')) plan.tree.nodes plan'.tree.nodes) := by
  have tree := Tree.compiled_of_compile grouped
  have tree' := Tree.compiled_of_compile listed
  have group : plan.tree = Graph.compileItems [.list items] := (Except.ok.inj grouped).symm
  have list : plan'.tree = Graph.compileItems items := (Except.ok.inj listed).symm
  have groups : plan.tree.Groups plan'.tree := by
    rw [group, list]
    exact Graph.groups_of_compile
  have execution := punctual.execution tree (groups.declares declares)
  have execution' := punctual'.execution tree' declares
  have executes := executes_iff_of_groups groups tree tree' execution execution' repeats.agrees.concur
  have shallow : Shallow plan run w := by
    refine ⟨fun members member => ?_, taken⟩
    rw [group] at member
    obtain rfl := Entry.nested.inj (List.mem_singleton.mp member)
    exact Graph.compileList_nodes actions
  have shallow' : Shallow plan' run' w' := by
    refine ⟨fun members member => ?_,
      taken_of_groups groups tree execution.reachable repeats.agrees executes taken⟩
    rw [list] at member
    obtain ⟨n, other⟩ := Graph.compileList_nodes actions _ member
    cases other
  refine ⟨execution.resolved tree, execution'.resolved tree', ?_, fun sole sole' => ?_⟩
  · rw [execution.args, execution'.args]
    exact repeats.agrees.tally executes (punctual.mergers_sorted grouped (groups.declares declares) shallow)
      (punctual'.mergers_sorted listed declares shallow') given
  · refine forall₂_of_map_eq groups.nodes fun n known n' known' same => ⟨same, ?_⟩
    exact repeats.resembles executes (Node.slot_of_bare same) (sole.lived grouped known) (sole'.lived listed known')

/-! ### Runs that are punctual by their steps -/

variable {k : Nat}

def dutifulSteps (plan : Plan) (run : RunId) : Nat → World → Bool
  | 0, _ => true
  | k + 1, w => (w.step plan).all fun w' => isDutiful plan run w w' && dutifulSteps plan run k w'

theorem dutiful_of_soleSteps {d : DictRef} (steps : soleSteps plan k w = some w') (dutiful : dutifulSteps plan run k w)
    (reached : Reachable plan w) (stored : d.index < w.heap.dicts.size) : w'.step plan = none ∧
      Relation.ReflTransGen (fun w w' => Sparing plan d w w' ∧ Undisturbed plan run w w' ∧
        (w.step plan = some w' → isDutiful plan run w w')) w w' := by
  induction k generalizing w with
  | zero =>
    obtain ⟨done, rfl⟩ := soleSteps_zero steps
    exact ⟨done, .refl⟩
  | succ k ih =>
    rcases soleSteps_succ steps with ⟨done, rfl⟩ | ⟨w₁, stepped, mild, -, -, rest⟩
    · exact ⟨done, .refl⟩
    · simp only [dutifulSteps, stepped, Option.all_some, Bool.and_eq_true] at dutiful
      have sparing : Sparing plan d w w₁ := sparing_of_mild stored mild stepped
      obtain ⟨done, lived⟩ := ih rest dutiful.2 (reached.move sparing.move)
        (Nat.lt_of_lt_of_le stored (sparing.size_le reached.sound.steady))
      exact ⟨done, .head ⟨sparing, ⟨step_loop reached.sound stepped, .inl stepped⟩, fun _ => dutiful.1⟩ lived⟩

theorem punctual_of_soleSteps (steps : soleSteps plan k (supplied plan entries 3) = some w)
    (dutiful : dutifulSteps plan 0 k (supplied plan entries 3)) : Punctual plan 0 entries w := by
  have launches := launches_supplied plan entries
  have reached := launches.stocked.reachable.move (.stepped launches.started)
  obtain ⟨done, lived⟩ := dutiful_of_soleSteps steps dutiful reached (stored_supplied plan entries)
  exact ⟨⟨_, _, launches, lived⟩, done⟩

/-- Whether no node of a run has selected a list with a nested list in it. -/
def selectsNodes (plan : Plan) (w : World) (run : RunId) : Bool :=
  plan.tree.nodes.all fun n => w.notes.all fun x => match x with
    | (i, .completed h r _) => i != run || h.slot != n.slot || match Template.keyOf r.path with
      | .ok key => match n.route? key with
        | some (_, .list inner) => inner.all fun
          | .node _ _ => true
          | .nested _ => false
        | _ => true
      | .error _ => true
    | _ => true

theorem nodes_of_selectsNodes (all : selectsNodes plan w run) : ∀ n ∈ plan.tree.nodes, ∀ r payload key inner,
    (run, .completed n.head r payload) ∈ w.notes → n.Selects r key inner → ∀ e ∈ inner, ∃ m : Node, e = m.entry := by
  intro n known r payload key inner completed ⟨_, reported, found, route⟩ e member
  have each := List.all_eq_true.mp (List.all_eq_true.mp all n known) _ completed
  simp only [bne_self_eq_false, Node.slot, Bool.false_or, found, route] at each
  have node := List.all_eq_true.mp each e member
  cases e with
  | node head outputs => exact ⟨⟨head, outputs⟩, rfl⟩
  | nested _ => cases node

def sameMapping (h h' : Heap) : Value → Value → Bool
  | .dict d, .dict d' => (h.dict d).length == (h'.dict d').length &&
    ((h.dict d).zip (h'.dict d')).all fun e => e.1.1.same e.2.1 && sameAtom e.1.2 e.2.2
  | v, v' => sameAtom v v'

theorem sameMapping_of_sameAtom {h h' : Heap} {v v' : Value} (same : sameAtom v v') : sameMapping h h' v v' := by
  cases v <;> cases v' <;> simp_all [sameAtom, sameMapping]

def allRepeat (w : World) (run : RunId) (w' : World) (run' : RunId) : Bool :=
  w.notes.all fun x => w'.notes.all fun y => match x, y with
    | (i, .completed h r _), (j, .completed h' r' _) =>
      i != run || j != run' || h.slot != h'.slot || sameMapping w.heap w'.heap r.payload r'.payload
    | _, _ => true

theorem repeats_of_allRepeat (agree : allAgree w run w' run') (all : allRepeat w run w' run') :
    w.Repeats (fun v v' => sameMapping w.heap w'.heap v v') run w' run' where
  agrees h r payload h' r' payload' slot completed completed' := by
    obtain ⟨path, same⟩ := agrees_of_allAgree agree h r payload h' r' payload' slot completed completed'
    exact ⟨path, List.Forall₂.imp (fun e e' both => ⟨both.1, sameMapping_of_sameAtom both.2⟩) same⟩
  payloads h r payload h' r' payload' slot completed completed' := by
    have same := List.all_eq_true.mp (List.all_eq_true.mp all _ completed) _ completed'
    simpa [slot] using same

/-- A node that takes the first of its outputs, the second of which leads to a nested list, one that takes no
completion, and one that writes to another key. -/
def pairingItems : List Item :=
  let shared : List Parameter := [⟨"args", .standard, false⟩, ⟨"store", .standard, false⟩]
  let reporting (token : Nat) (label : String) (args : List Template) : Item := .leaf (.object token 0) (.function {
    label
    signature := shared ++ [⟨"completion", .standard, false⟩]
    steps := [.call args] } {})
  let second := reporting 2 "b" [.dict [(.text "k", .int 2)]]
  [reporting 0 "a" [.text "x", .dict [(.text "k", .int 1)]],
    .mapping (.object 1 0) false [
      (.atom (.text "x"), .list [second]),
      (.atom (.text "y"), .list [.list [second]])],
    .leaf (.object 3 0) (.function { label := "c", signature := shared, steps := [] } {}),
    reporting 4 "d" [.dict [(.text "m", .int 3), (.text "l", .int 4)]]]

def grouped : Plan where
  tree := Graph.compileItems [.list pairingItems]

def listed : Plan where
  tree := Graph.compileItems pairingItems

def pairingArgs : Entries := [(.ofText "l", .atom (.int 0))]

/-- The group calls the last of its nodes before the one on the branch, and the list after it. The args are the
same. -/
theorem paired_runs_agree : ∃ (w w' : World) (ms ms' : Nat),
    w.status 0 = .resolved ms ∧ w'.status 0 = .resolved ms' ∧
    (w.callsOf 0).map (·.1.slot) = [0, 3, 4, 1] ∧ (w'.callsOf 0).map (·.1.slot) = [0, 1, 3, 4] ∧
    (w.heap.dict (w.argsOf 0)).map (·.1.shown) = ["'l'", "'k'", "'m'"] ∧
    Entries.Rel (fun v v' => sameMapping w.heap w'.heap v v') (w.heap.dict (w.argsOf 0))
      (w'.heap.dict (w'.argsOf 0)) ∧
    List.Forall₂ (fun n n' => n.bare = n'.bare ∧ Resembles (fun v v' => sameMapping w.heap w'.heap v v')
      (w.nodeState n) (w'.nodeState n')) grouped.tree.nodes listed.tree.nodes := by
  have result : (soleSteps grouped 60 (supplied grouped pairingArgs 3)).any fun w =>
      (soleSteps listed 60 (supplied listed pairingArgs 3)).any fun w' =>
        w.isClear && w'.isClear && selectsNodes grouped w 0 &&
          allAgree w 0 w' 0 && allRepeat w 0 w' 0 &&
          (w.callsOf 0).map (·.1.slot) == [0, 3, 4, 1] && (w'.callsOf 0).map (·.1.slot) == [0, 1, 3, 4] &&
          (w.heap.dict (w.argsOf 0)).map (·.1.shown) == ["'l'", "'k'", "'m'"] := by
    decide +kernel
  have dutiful : dutifulSteps grouped 0 60 (supplied grouped pairingArgs 3) := by decide +kernel
  have dutiful' : dutifulSteps listed 0 60 (supplied listed pairingArgs 3) := by decide +kernel
  have declares : listed.tree.Declares := by
    unfold Tree.Declares
    decide +kernel
  obtain ⟨w, steps, result⟩ := (Option.any_eq_true _ _).mp result
  obtain ⟨w', steps', all⟩ := (Option.any_eq_true _ _).mp result
  simp only [Bool.and_eq_true, beq_iff_eq] at all
  obtain ⟨⟨⟨⟨⟨⟨⟨clear, clear'⟩, flat⟩, agree⟩, repeats⟩, calls⟩, calls'⟩, keys⟩ := all
  have punctual := punctual_of_soleSteps steps dutiful
  have punctual' := punctual_of_soleSteps steps' dutiful'
  obtain ⟨-, sole⟩ := execution_of_soleSteps steps clear
  obtain ⟨-, sole'⟩ := execution_of_soleSteps steps' clear'
  have compiled : Graph.compile (.list [.list pairingItems]) = .ok grouped.tree := rfl
  have compiled' : Graph.compile (.list pairingItems) = .ok listed.tree := rfl
  have given : Entries.Rel (fun v v' => sameMapping w.heap w'.heap v v') pairingArgs pairingArgs :=
    .cons ⟨rfl, rfl⟩ .nil
  obtain ⟨⟨ms, resolved⟩, ⟨ms', resolved'⟩, args, shown⟩ :=
    group_agrees_with_list (by simp [pairingItems]) compiled compiled' declares punctual punctual' given
      (repeats_of_allRepeat agree repeats) (nodes_of_selectsNodes flat)
  exact ⟨w, w', ms, ms', resolved, resolved', calls, calls', keys, args, shown sole sole'⟩

end World

end Conductor
