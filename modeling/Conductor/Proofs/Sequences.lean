import Conductor.Proofs.Barrier
import Conductor.Proofs.Ways

/-!
# Sequences

The entries of a branch list come one after the other: when anything in an entry starts, all entries
before it are done. Whatever was called in these, however deep, has completed by then, has been
followed to the end of what it selected, and what it began has ended well.
-/

namespace Conductor

/-- Whether a happening starts something within the entry at a path: a node there is called, or a list
nested there is given a task. -/
def Happening.Starts (p : Path) (e : Entry) : Happening → Prop
  | .called h _ => ∃ n ∈ e.nodes, n.head = h
  | .spawned place => p <+: place
  | _ => False

namespace World

variable {plan : Plan} {w w' : World} {run : RunId} {n : Node} {h : Head} {args payload : Entries} {r : Result}
  {place p : Path} {before rest : List Entry} {e e' : Entry} {notes : List Note} {x : Happening}
  {aim : FutureId → Aim}

theorem Calls.stood (ordered : Ordered plan aim w) (calls : Calls run n w.focus) : Stood plan w run n := by
  have focused := ordered.focus
  generalize w.focus = focus at calls focused
  cases calls with
  | sequential =>
    obtain ⟨a, opens, -⟩ := focused
    cases opens with
    | played own => cases own
    | sequential reached => exact reached.stood (Entry.mem_own_self n)
  | dispatch =>
    obtain ⟨a, opens, -⟩ := focused
    cases opens with
    | played own => cases own
    | dispatch reached _ => exact reached.stood (Entry.mem_own_nested.mpr (by simp))

theorem Reachable.stood (reached : Reachable plan w) (compiled : plan.tree.Compiled)
    (called : (run, .called h args) ∈ w.notes) : ∃ n, n.head = h ∧ Stood plan w run n := by
  refine reached.forall_notes (P := fun w x => ∀ h args, x.2 = .called h args → ∃ n, n.head = h ∧ Stood plan w x.1 n)
    (fun before m x earlier h args same => ?_) (fun before m noting x new h args same => ?_) _ called _ _ rfl
  · obtain ⟨n, own, stood⟩ := earlier h args same
    exact ⟨n, own, stood.later (m.later before compiled)⟩
  · obtain ⟨run, x⟩ := x
    obtain rfl : x = _ := same
    obtain ⟨aim, ordered⟩ := before.ordered compiled
    cases noting.happens new with
    | called n _ _ calls => exact ⟨n, rfl, (calls.stood ordered).later (m.later before compiled)⟩

theorem Stood.mem (stood : Stood plan w run n) : n ∈ plan.tree.nodes :=
  stood.places.sublist.subset List.mem_cons_self

theorem Reachable.comes (reached : Reachable plan w) (compiled : plan.tree.Compiled) (known : n ∈ plan.tree.nodes)
    (called : (run, .called n.head args) ∈ w.notes) : Comes plan w run n.path n.entry := by
  obtain ⟨m, same, stood⟩ := reached.stood compiled called
  obtain rfl := compiled.eq_of_head stood.mem known same
  exact stood.comes compiled

theorem Reachable.completed_once (reached : Reachable plan w) (compiled : plan.tree.Compiled) {r' : Result}
    {payload' : Entries} (completed : (run, .completed h r payload) ∈ w.notes)
    (completed' : (run, .completed h r' payload') ∈ w.notes) : r = r' ∧ payload = payload' := by
  have same := reached.unique compiled .complete completed completed' rfl rfl rfl
  exact ⟨(Happening.completed.inj same).2.1, (Happening.completed.inj same).2.2⟩

/-- All nodes of an entry that is done have run, so far as they have been called, and so has what they
select. -/
theorem Reachable.ran (reached : Reachable plan w) (compiled : plan.tree.Compiled) (done : w.Done run e)
    {entries : List Entry} {i : Nat} (branch : plan.tree.BranchAt place entries) (found : entries[i]? = some e)
    (within : n ∈ e.nodes) (called : (run, .called n.head args) ∈ w.notes) :
    ∃ r, w.Ran run n r ∧ w.Routed run n r := by
  have known := ((Tree.nodes_sublist found).trans branch.sublist).subset within
  exact done.ran compiled (.listed branch found) (reached.comes compiled known called)
    (compiled.within _ _ _ _ _ branch found within)
    fun m r payload r' payload' first second =>
      congrArg Result.path (reached.completed_once compiled first second).1

theorem Noting.comes (compiled : plan.tree.Compiled) (ordered : Ordered plan aim w)
    (noting : Noting plan w notes w') (new : (run, x) ∈ notes)
    (branch : plan.tree.BranchAt place (before ++ e :: rest)) (starts : x.Starts (place ++ [.entry before.length]) e) :
    w.isSettled run = false ∧
      ∃ q y, Comes plan w run q y ∧ place ++ [.entry before.length] <+: q := by
  have here : (before ++ e :: rest)[before.length]? = some e := by simp
  cases noting.happens new with
  | called n args fresh calls =>
    obtain ⟨m, within, same⟩ := starts
    have stood := calls.stood ordered
    obtain rfl := compiled.eq_of_head stood.mem (((Tree.nodes_sublist here).trans branch.sublist).subset within)
      same.symm
    exact ⟨fresh, _, _, stood.comes compiled, compiled.within _ _ _ _ _ branch here within⟩
  | spawned fresh busy =>
    obtain ⟨a, opens, -⟩ := ordered.entered busy
    cases opens with
    | played own => cases own
    | @dispatch _ around front _ done _ _ reached _ =>
      have group : Path.isSequence (around ++ [.entry front.length]) = false := by
        rw [Tree.isSequence_append, reached.list.branchAt.isSequence]
        rfl
      have outer := reached.list.comes compiled _ _ _ rfl reached.past
      have there := outer.member (k := done.length) (e := .nested _) group (by simp; rfl)
      exact ⟨fresh, _, _, there, starts⟩
  | _ => exact starts.elim

/-- When anything in an entry of a branch list of a compiled graph starts, all entries before it are
done, and all nodes have run that have been called in these, together with what they select. -/
theorem earlier_entries_have_run {graph : Item} (compiled : Graph.compile graph = .ok plan.tree)
    (reached : Reachable plan w) (m : Move plan w w') {later : List Note} (noted : w'.notes = later ++ w.notes)
    (branch : plan.tree.BranchAt place (before ++ e' :: rest)) (new : (run, x) ∈ later)
    (starts : x.Starts (place ++ [.entry before.length]) e') (earlier : e ∈ before) :
    w.Done run e ∧ ∀ n ∈ e.nodes, ∀ args, (run, .called n.head args) ∈ w.notes →
      ∃ r, w.Ran run n r ∧ w.Routed run n r := by
  have compiled' := Tree.compiled_of_compile compiled
  obtain ⟨aim, ordered⟩ := reached.ordered compiled'
  obtain ⟨notes, noting⟩ := m.noting reached.sound
  obtain rfl : notes = later := List.append_cancel_right (noting.noted.symm.trans noted)
  obtain ⟨fresh, q, y, comes, along⟩ := noting.comes compiled' ordered new branch starts
  have past := comes.past compiled' branch along e earlier
  have done : w.Done run e := past.resolve_left (by simp [fresh])
  obtain ⟨i, found⟩ := List.getElem?_of_mem earlier
  have bound : i < before.length := (List.getElem?_eq_some_iff.mp found).1
  have there : (before ++ e' :: rest)[i]? = some e := by rw [List.getElem?_append_left bound, found]
  exact ⟨done, fun n within args called => reached.ran compiled' done branch there within called⟩

/-- A group whose only member completes, overwrites an attribute by which the run hears of the end of
its body, and fails, and a node after the group. -/
def rebindingItems : List Item := [
    .list [.leaf (.object 0 0) (.function {
      label := "a"
      isAsync := true
      signature := [⟨"args", .standard, false⟩, ⟨"store", .standard, false⟩, ⟨"completion", .standard, false⟩]
      steps := [.call [], .attribute "__setattr__" [.text "_is_done", .int 5], .raise "ValueError" none] } {})],
    .leaf (.object 1 0) (.function {
      label := "b"
      signature := [⟨"args", .standard, false⟩, ⟨"store", .standard, false⟩]
      steps := [] } {})]

def rebinding : Plan where
  tree := Graph.compileItems rebindingItems

def callsSlot (notes : List Note) (run : RunId) (slot : Nat) : Bool :=
  notes.any fun x => x.1 == run && (Stage.call.reached? x.2).any fun h => h.slot == slot

theorem exists_of_callsSlot {slot : Nat} (calls : callsSlot notes run slot) :
    ∃ h args, h.slot = slot ∧ (run, .called h args) ∈ notes := by
  obtain ⟨⟨run', x⟩, member, both⟩ := List.any_eq_true.mp calls
  obtain ⟨same, here⟩ := Bool.and_eq_true_iff.mp both
  obtain rfl : run' = run := by simpa using same
  obtain ⟨h, own, slot⟩ := (Option.any_eq_true _ _).mp here
  refine ⟨h, ?_⟩
  cases x with
  | called h' args =>
    obtain rfl := Option.some.inj own
    exact ⟨args, by simpa using slot, member⟩
  | _ => cases own

def bodyFails (w : World) (run : RunId) (slot : Nat) : Bool :=
  w.notes.any fun
    | (other, .began h (some b)) => other == run && h.slot == slot && (w.settlement? b matches some (.failed _))
    | _ => false

theorem exists_of_bodyFails {slot : Nat} (fails : bodyFails w run slot) : ∃ h b e, h.slot = slot ∧
    (run, .began h (some b)) ∈ w.notes ∧ w.settlement? b = some (.failed e) := by
  obtain ⟨x, member, here⟩ := List.any_eq_true.mp fails
  split at here
  · rename_i other h b
    obtain ⟨both, failed⟩ := Bool.and_eq_true_iff.mp here
    obtain ⟨same, slot⟩ := Bool.and_eq_true_iff.mp both
    obtain rfl : other = run := by simpa using same
    split at failed
    · exact ⟨h, b, _, by simpa using slot, member, ‹_›⟩
    · cases failed
  · cases here

theorem step_callsSlot {slot : Nat} (reached : Reachable plan w)
    (before : callsSlot w.notes run slot = false)
    (after : (w.step plan).any fun w' => callsSlot w'.notes run slot) :
    ∃ w' later h args, Move plan w w' ∧ w'.notes = later ++ w.notes ∧ h.slot = slot ∧
      (run, .called h args) ∈ later := by
  obtain ⟨w', stepped, calls⟩ := (Option.any_eq_true _ _).mp after
  have m : Move plan w w' := .stepped stepped
  obtain ⟨later, noting⟩ := m.noting reached.sound
  have noted := noting.noted
  rw [noted, callsSlot, List.any_append] at calls
  obtain ⟨h, args, own, member⟩ := exists_of_callsSlot ((Bool.or_eq_true_iff.mp calls).resolve_right (by
    rw [← callsSlot, before]
    exact Bool.false_ne_true))
  exact ⟨w', later, h, args, m, noted, own, member⟩

theorem rebinding_calls_next : ∃ w', Move rebinding (firstRun rebinding 36) w' ∧ ∃ later h args,
    w'.notes = later ++ (firstRun rebinding 36).notes ∧ h.slot = 1 ∧ (0, .called h args) ∈ later := by
  have before : callsSlot (firstRun rebinding 36).notes 0 1 = false := by decide +kernel
  have after : ((firstRun rebinding 36).step rebinding).any fun w' => callsSlot w'.notes 0 1 := by
    decide +kernel
  obtain ⟨w', later, h, args, m, noted, own, member⟩ :=
    step_callsSlot (reachable_firstRun rebinding 36) before after
  exact ⟨w', m, later, h, args, noted, own, member⟩

/-- The group is done when the node after it is called. -/
theorem group_has_run_before_next : ∃ w e, Reachable rebinding w ∧ rebinding.tree.branches[0]? = some e ∧
    w.Done 0 e := by
  have reached := reachable_firstRun rebinding 36
  obtain ⟨w', m, later, h, args, noted, own, member⟩ := rebinding_calls_next
  have slots : (rebinding.tree.branches[0]?.map fun e => e.nodes.map Node.slot) = some [0] := by
    decide +kernel
  have two : rebinding.tree.branches.length = 2 := by decide +kernel
  obtain ⟨e, e', split⟩ := List.length_eq_two.mp two
  have compiled : Graph.compile (.list rebindingItems) = .ok rebinding.tree := rfl
  have branch : rebinding.tree.BranchAt [] ([e] ++ e' :: []) := by
    have whole := Tree.BranchAt.root (t := rebinding.tree)
    rwa [split] at whole
  have starts : Happening.Starts ([] ++ [.entry 1]) e' (.called h args) := by
    have called : (0, .called h args) ∈ w'.notes := noted ▸ List.mem_append_left _ member
    obtain ⟨n, same, stood⟩ := Reachable.stood (.move reached m) (Tree.compiled_of_compile compiled) called
    have within : n ∈ e.nodes ∨ n ∈ e'.nodes := by
      have all := stood.mem
      rw [Tree.nodes, split] at all
      simpa [nodesOf] using all
    refine ⟨n, within.resolve_left fun other => ?_, same⟩
    rw [split] at slots
    have first : e.nodes.map Node.slot = [0] := Option.some.inj slots
    have slot : n.slot ∈ e.nodes.map Node.slot := List.mem_map_of_mem other
    rw [first, List.mem_singleton, Node.slot, same, own] at slot
    cases slot
  obtain ⟨done, -⟩ := earlier_entries_have_run compiled reached m noted branch member starts
    (List.mem_singleton_self e)
  exact ⟨_, e, reached, by rw [split]; rfl, done⟩

/-- A failure that a descriptor keeps from its run lets the run go on to the next entry. -/
theorem unheard_failure_is_passed : ∃ w w' later h h' args b e, Reachable rebinding w ∧
    Move rebinding w w' ∧ w'.notes = later ++ w.notes ∧ (0, .called h' args) ∈ later ∧ h'.slot = 1 ∧
    (0, .began h (some b)) ∈ w.notes ∧ h.slot = 0 ∧ w.settlement? b = some (.failed e) := by
  obtain ⟨w', m, later, h', args, noted, own, member⟩ := rebinding_calls_next
  have fails : bodyFails (firstRun rebinding 36) 0 0 := by decide +kernel
  obtain ⟨h, b, e, slot, began, failed⟩ := exists_of_bodyFails fails
  exact ⟨_, w', later, h, h', args, b, e, reachable_firstRun rebinding 36, m, noted, member, own, began, slot,
    failed⟩

end World

end Conductor
