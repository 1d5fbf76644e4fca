import Conductor.Proofs.Agreement

/-!
# Schedules

When the members of each group write different keys, it does not matter in which order they complete: the
last payload that has a key is the same one under every schedule. Of any two nodes that write one key, a run
comes to one only or completes them in the order of the walk.
-/

namespace Conductor

namespace Tree

variable {t t' : Tree} {place : Path} {entries : List Entry} {n m : Node}

theorem BranchAt.congr (same : t'.branches = t.branches) (branch : t.BranchAt place entries) :
    t'.BranchAt place entries := by
  induction branch with
  | root => exact same ▸ .root
  | nested _ group member ih => exact .nested ih group member
  | single _ entry route ih => exact .single ih entry route
  | grouped _ group member route ih => exact .grouped ih group member route

theorem Ahead.congr (same : t'.branches = t.branches) (ahead : t.Ahead n m) : t'.Ahead n m := by
  cases ahead with
  | below within => exact .below within
  | earlier branch less first second within within' =>
    exact .earlier (branch.congr same) less first second within within'

theorem nodes_congr (same : t'.branches = t.branches) : t'.nodes = t.nodes := by rw [nodes, nodes, same]

end Tree

namespace World

variable {plan plan' : Plan} {w w' : World} {run run' : RunId} {R : Value → Value → Prop} {entries entries' : Entries}
  {slot slot' : Nat} {k : Key} {v v' : Value} {notes : List Note} {n m : Node} {r r' : Result}
  {payload payload' : Entries}

/-! ### Last writers -/

/-- The value that a note tells to be written under a key for a run, with the slot of the node that writes it. -/
def writes (run : RunId) (k : Key) : Note → Option (Nat × Value)
  | (other, .completed h _ payload) => if other = run then (Entries.get? payload.reverse k).map (h.slot, ·) else none
  | _ => none

/-- The last value that a run has written under a key, with the slot of the node that wrote it. -/
def lastWrite (run : RunId) (k : Key) (notes : List Note) : Option (Nat × Value) := notes.findSome? (writes run k)

theorem get?_payloads : Entries.get? (payloads run notes).flatten.reverse k = (lastWrite run k notes).map (·.2) := by
  unfold lastWrite
  induction notes with
  | nil => rfl
  | cons x rest ih =>
    obtain ⟨other, x⟩ := x
    have skipped (unpaid : payload? run (other, x) = none) (unwritten : writes run k (other, x) = none) :
        Entries.get? (payloads run ((other, x) :: rest)).flatten.reverse k =
          (((other, x) :: rest).findSome? (writes run k)).map (·.2) := by
      rw [List.findSome?_cons, unwritten, ← ih, payloads, payloads, List.filterMap_cons, unpaid]
    cases x with
    | completed h r payload =>
      by_cases own : other = run
      · subst own
        have there : payloads other ((other, .completed h r payload) :: rest) = payloads other rest ++ [payload] := by
          simp [payloads, payload?]
        rw [there, List.flatten_append, List.reverse_append, Entries.get?_append, ih, List.findSome?_cons, writes,
          if_pos rfl]
        cases found : Entries.get? payload.reverse k <;> simp [found]
      · exact skipped (if_neg own) (if_neg own)
    | _ => exact skipped rfl rfl

theorem writes_eq_some {x : Note} (found : writes run k x = some (slot, v)) : ∃ h r payload,
    x = (run, .completed h r payload) ∧ h.slot = slot ∧ Entries.get? payload.reverse k = some v := by
  obtain ⟨other, x⟩ := x
  cases x with
  | completed h r payload =>
    rw [writes] at found
    split at found
    · rename_i own
      obtain ⟨_, value, both⟩ := Option.map_eq_some_iff.mp found
      obtain ⟨rfl, rfl⟩ := Prod.mk.inj both
      exact ⟨h, r, payload, by rw [own], rfl, value⟩
    · cases found
  | _ => cases found

theorem writes_completed {h : Head} (value : Entries.get? payload.reverse k = some v) :
    writes run k (run, .completed h r payload) = some (h.slot, v) := by
  rw [writes, if_pos rfl, value]
  rfl

theorem get?_reverse_eq_none (unset : payload.get? k = none) : Entries.get? payload.reverse k = none := by
  simpa [Entries.get?] using unset

/-- A node that is ahead of another one does not write last what that one writes too. -/
theorem not_written_last (reached : Reachable plan w) (compiled : plan.tree.Compiled) (declares : plan.tree.Declares)
    (known : n ∈ plan.tree.nodes) (known' : m ∈ plan.tree.nodes) (ahead : plan.tree.Ahead n m)
    (last : lastWrite run k w.notes = some (n.slot, v)) (completed : (run, .completed m.head r' payload') ∈ w.notes)
    (value : Entries.get? payload'.reverse k = some v') : False := by
  obtain ⟨later, x, earlier, split, written, unwritten⟩ := List.findSome?_eq_some_iff.mp last
  obtain ⟨h, r, payload, rfl, own, -⟩ := writes_eq_some written
  have there : (run, .completed h r payload) ∈ w.notes := split ▸ by simp
  obtain ⟨n', rfl, stood⟩ := reached.completed_stood compiled there
  obtain rfl := compiled.eq_of_slot stood.mem known own
  rw [split] at completed
  rcases List.mem_append.mp completed with after | before
  · have none := unwritten _ after
    rw [writes_completed value] at none
    cases none
  · -- the other node has completed before, and this one before that
    have first : (run, .completed n'.head r payload) ∈ earlier := by
      rcases List.mem_cons.mp before with same | before
      · obtain ⟨head, -⟩ := Happening.completed.inj (Prod.mk.inj same).2
        obtain rfl := compiled.eq_of_head known' known head
        exact completed_ahead reached compiled declares known there known' ahead split
      · obtain ⟨more, rest, rfl⟩ := List.append_of_mem before
        have split' : w.notes = (later ++ (run, .completed n'.head r payload) :: more) ++
            (run, .completed m.head r' payload') :: rest := by simp [split]
        have first := completed_ahead reached compiled declares known there known' ahead split'
        exact List.mem_append_right _ (List.mem_cons_of_mem _ first)
    have split' : w.notes = (later ++ [(run, .completed n'.head r payload)]) ++ earlier := by simp [split]
    have new : (run, .completed n'.head r payload) ∈ later ++ [(run, .completed n'.head r payload)] := by simp
    exact reached.once compiled .complete split' new first rfl rfl rfl

/-! ### Two schedules -/

/-- What one of two runs that agree writes, the other one writes too, if it executes the same nodes. -/
theorem Agrees.writes (agrees : w.Agrees R run w' run') (executes : ∀ slot, w.Executes run slot → w'.Executes run' slot)
    {h : Head} (completed : (run, .completed h r payload) ∈ w.notes) (value : Entries.get? payload.reverse k = some v) :
    ∃ h' r' payload' v', h'.slot = h.slot ∧ (run', .completed h' r' payload') ∈ w'.notes ∧
      Entries.get? payload'.reverse k = some v' ∧ R v v' := by
  obtain ⟨h', r', payload', slot, completed'⟩ := executes h.slot ⟨h, r, payload, rfl, completed⟩
  have rel := (agrees h r payload h' r' payload' slot.symm completed completed').2.reverse.get? (k := k)
  rw [value] at rel
  generalize there : Entries.get? payload'.reverse k = found at rel
  cases rel with
  | some rel => exact ⟨h', r', payload', _, slot, completed', there, rel⟩

theorem lastWrite_isSome {h : Head} (completed : (run, .completed h r payload) ∈ w.notes)
    (value : Entries.get? payload.reverse k = some v) : lastWrite run k w.notes ≠ none := by
  intro unwritten
  have none := List.findSome?_eq_none_iff.mp unwritten _ completed
  rw [writes_completed value] at none
  cases none

theorem lastWrite_completed (last : lastWrite run k w.notes = some (slot, v)) : ∃ h r payload, h.slot = slot ∧
    (run, .completed h r payload) ∈ w.notes ∧ Entries.get? payload.reverse k = some v := by
  obtain ⟨later, x, earlier, split, written, -⟩ := List.findSome?_eq_some_iff.mp last
  obtain ⟨h, r, payload, rfl, own, value⟩ := writes_eq_some written
  exact ⟨h, r, payload, own, split ▸ by simp, value⟩

section

variable (reached : Reachable plan w) (compiled : plan.tree.Compiled) (reached' : Reachable plan' w')
  (compiled' : plan'.tree.Compiled) (same : plan'.tree.branches = plan.tree.branches) (declares : plan.tree.Declares)
  (executes : ∀ slot, w.Executes run slot ↔ w'.Executes run' slot) (agrees : w.Agrees R run w' run')
  (disjoint : ∀ n m r payload r' payload' k, plan.tree.Beside n m → (run, .completed n.head r payload) ∈ w.notes →
    (run, .completed m.head r' payload') ∈ w.notes → payload.get? k = none ∨ payload'.get? k = none)
include reached compiled reached' compiled' same declares executes agrees disjoint

theorem last_writers_agree (last : lastWrite run k w.notes = some (slot, v))
    (last' : lastWrite run' k w'.notes = some (slot', v')) : slot = slot' := by
  obtain ⟨h, r, payload, rfl, completed, value⟩ := lastWrite_completed last
  obtain ⟨h', r', payload', rfl, completed', value'⟩ := lastWrite_completed last'
  obtain ⟨n, rfl, stood⟩ := reached.completed_stood compiled completed
  obtain ⟨m, rfl, stood'⟩ := reached'.completed_stood compiled' completed'
  have nodes := Tree.nodes_congr same
  have declares' : plan'.tree.Declares := fun n member => declares n (nodes ▸ member)
  -- each of the two nodes has written the key under the other schedule, too
  obtain ⟨h₁, r₁, payload₁, v₁, slot₁, completed₁, value₁, -⟩ :=
    agrees.writes (fun slot => (executes slot).mp) completed value
  obtain ⟨h₂, r₂, payload₂, v₂, slot₂, completed₂, value₂, -⟩ :=
    agrees.flip.writes (fun slot => (executes slot).mpr) completed' value'
  obtain ⟨n', rfl, stood₁⟩ := reached'.completed_stood compiled' completed₁
  obtain ⟨m', rfl, stood₂⟩ := reached.completed_stood compiled completed₂
  obtain rfl : n' = n := compiled.eq_of_slot (nodes ▸ stood₁.mem) stood.mem slot₁
  obtain rfl : m' = m := compiled.eq_of_slot stood₂.mem (nodes ▸ stood'.mem) slot₂
  cases Tree.arranged declares stood.mem stood₂.mem with
  | same own => rw [own]
  | ahead ahead =>
    exact (not_written_last reached compiled declares stood.mem stood₂.mem ahead last completed₂ value₂).elim
  | behind behind =>
    exact (not_written_last reached' compiled' declares' stood'.mem stood₁.mem (behind.congr same) last' completed₁
      value₁).elim
  | beside beside =>
    rcases disjoint n' m' r payload r₂ payload₂ k beside completed completed₂ with unset | unset
    · cases value.symm.trans (get?_reverse_eq_none unset)
    · cases value₂.symm.trans (get?_reverse_eq_none unset)
  | exclusive exclusive =>
    exact (not_exclusive reached compiled declares stood.mem completed stood₂.mem completed₂ exclusive).elim

theorem last_writes_agree :
    Option.Rel R ((lastWrite run k w.notes).map (·.2)) ((lastWrite run' k w'.notes).map (·.2)) := by
  cases last : lastWrite run k w.notes with
  | none =>
    cases last' : lastWrite run' k w'.notes with
    | none => exact .none
    | some x =>
      obtain ⟨h', r', payload', -, completed', value'⟩ := lastWrite_completed last'
      obtain ⟨h, r, payload, v, -, completed, value, -⟩ :=
        agrees.flip.writes (fun slot => (executes slot).mpr) completed' value'
      exact (lastWrite_isSome completed value last).elim
  | some x =>
    obtain ⟨h, r, payload, own, completed, value⟩ := lastWrite_completed last
    obtain ⟨h₁, r₁, payload₁, v₁, slot₁, completed₁, value₁, rel⟩ :=
      agrees.writes (fun slot => (executes slot).mp) completed value
    cases last' : lastWrite run' k w'.notes with
    | none => exact (lastWrite_isSome completed₁ value₁ last').elim
    | some x' =>
      obtain ⟨h', r', payload', own', completed', value'⟩ := lastWrite_completed last'
      have slots := last_writers_agree reached compiled reached' compiled' same declares executes agrees disjoint
        last last'
      have once := reached'.unique compiled' .complete completed₁ completed' rfl rfl
        (slot₁.trans (own.trans (slots.trans own'.symm)))
      obtain ⟨-, -, rfl⟩ := Happening.completed.inj once
      obtain rfl := Option.some.inj (value₁.symm.trans value')
      exact .some rel

end

/-- Two runs of one graph that differ in when the actions complete, and in nothing else but that, both
resolve, execute the same nodes, and end with the same args, apart from the order of the keys, when the
payloads of nodes in different members of a group have no key in common. -/
theorem results_do_not_depend_on_schedule {graph graph' : Item} (compiled : Graph.compile graph = .ok plan.tree)
    (compiled' : Graph.compile graph' = .ok plan'.tree) (same : plan'.tree.branches = plan.tree.branches)
    (declares : plan.tree.Declares) (execution : Execution plan run entries w)
    (execution' : Execution plan' run' entries' w') (given : Entries.Rel R entries entries')
    (agrees : w.Agrees R run w' run')
    (disjoint : ∀ n m r payload r' payload' k, plan.tree.Beside n m → (run, .completed n.head r payload) ∈ w.notes →
      (run, .completed m.head r' payload') ∈ w.notes → payload.get? k = none ∨ payload'.get? k = none) :
    (∃ ms, w.status run = .resolved ms) ∧ (∃ ms, w'.status run' = .resolved ms) ∧
    (∀ slot, w.Executes run slot ↔ w'.Executes run' slot) ∧
    (Sole plan run w → Sole plan' run' w' →
      ∀ n ∈ plan.tree.nodes, (w.nodeState n).executed = (w'.nodeState n).executed) ∧
    ∀ k, Option.Rel R ((w.heap.dict (w.argsOf run)).get? k) ((w'.heap.dict (w'.argsOf run')).get? k) := by
  have tree := Tree.compiled_of_compile compiled
  have tree' := Tree.compiled_of_compile compiled'
  have executes (slot : Nat) : w.Executes run slot ↔ w'.Executes run' slot := by
    refine ⟨execution.executes tree agrees.concur fun e member => ?_,
      execution'.executes tree' agrees.concur.symm fun e member => ?_⟩
    · exact (execution'.roots tree' e (same ▸ member)).matched
    · exact (execution.roots tree e (same ▸ member)).matched
  refine ⟨execution.resolved tree, execution'.resolved tree', executes, fun sole sole' n known => ?_, fun k => ?_⟩
  · rw [Bool.eq_iff_iff, sole.executed_iff compiled known, executes,
      sole'.executed_iff compiled' (Tree.nodes_congr same ▸ known)]
  · have last := last_writes_agree (k := k) execution.reachable tree execution'.reachable tree' same declares executes
      agrees disjoint
    rw [execution.args, execution'.args, get?_tally, get?_tally, get?_payloads, get?_payloads]
    have first := given.get? (k := k)
    generalize (lastWrite run k w.notes).map (·.2) = written at last ⊢
    generalize (lastWrite run' k w'.notes).map (·.2) = written' at last ⊢
    cases last with
    | none => exact first
    | some rel => exact .some rel

/-- A group of two members, which complete after so many ticks, and a node after the group that overwrites
what the first one has written. -/
def delayingItems (first second : Nat) : List Item :=
  let member (token : Nat) (label key : String) (ticks : Nat) : Item := .leaf (.object token 0) (.function {
    label
    signature := [⟨"args", .standard, false⟩, ⟨"store", .standard, false⟩, ⟨"completion", .standard, false⟩]
    steps := [.later ticks [.call [.dict [(.text key, .int token)]]]] } {})
  [.list [member 0 "a" "x" first, member 1 "b" "y" second],
    .leaf (.object 2 0) (.function {
      label := "c"
      signature := [⟨"args", .standard, false⟩, ⟨"store", .standard, false⟩, ⟨"completion", .standard, false⟩]
      steps := [.call [.dict [(.text "x", .int 2)]]] } {})]

def delaying (first second : Nat) : Plan where
  tree := Graph.compileItems (delayingItems first second)

/-- Whether no two nodes of a run that stand outside the root list write one key. -/
def writesApart (w : World) (run : RunId) : Bool :=
  w.notes.all fun x => w.notes.all fun y => match x, y with
    | (i, .completed h _ payload), (j, .completed h' _ payload') =>
      i != run || j != run || h.slot == h'.slot || decide (h.path.length < 2) || decide (h'.path.length < 2) ||
        payload.all fun e => payload'.all fun e' => !e.1.same e'.1
    | _, _ => true

theorem unset_of_writesApart (apart : w.writesApart run) (compiled : plan.tree.Compiled) (declares : plan.tree.Declares)
    (beside : plan.tree.Beside n m) (completed : (run, .completed n.head r payload) ∈ w.notes)
    (completed' : (run, .completed m.head r' payload') ∈ w.notes) : payload.get? k = none ∨ payload'.get? k = none := by
  obtain ⟨slots, deep, deep'⟩ := compiled.apart_of_beside declares beside
  have differ := List.all_eq_true.mp (List.all_eq_true.mp apart _ completed) _ completed'
  have slots : n.head.slot ≠ m.head.slot := slots
  have deep : ¬ n.head.path.length < 2 := Nat.not_lt.mpr deep
  have deep' : ¬ m.head.path.length < 2 := Nat.not_lt.mpr deep'
  simp only [bne_self_eq_false, Bool.false_or, beq_eq_false_iff_ne.mpr slots, deep, deep', decide_false] at differ
  by_contra both
  push Not at both
  obtain ⟨⟨v, value⟩, ⟨v', value'⟩⟩ := both.imp Option.ne_none_iff_exists'.mp Option.ne_none_iff_exists'.mp
  obtain ⟨e, found, -⟩ := Option.map_eq_some_iff.mp value
  obtain ⟨e', found', -⟩ := Option.map_eq_some_iff.mp value'
  have other := List.all_eq_true.mp (List.all_eq_true.mp differ e (List.mem_of_find?_eq_some found)) e'
    (List.mem_of_find?_eq_some found')
  have mine : e.1.same k := by simpa using List.find?_some found
  have yours : e'.1.same k := by simpa using List.find?_some found'
  simp [Key.same_iff.mpr ((Key.same_iff.mp mine).trans (Key.same_iff.mp yours).symm)] at other

/-- Two schedules under which the members of the group complete in different orders lead to the same args, with
the keys in different orders. -/
theorem swapped_delays_agree : ∃ (w w' : World) (ms ms' : Nat),
    w.status 0 = .resolved ms ∧ w'.status 0 = .resolved ms' ∧
    (∀ slot, w.Executes 0 slot ↔ w'.Executes 0 slot) ∧
    (∀ n ∈ (delaying 5 1).tree.nodes, (w.nodeState n).executed = (w'.nodeState n).executed) ∧
    (w.heap.dict (w.argsOf 0)).length = 2 ∧
    (w.heap.dict (w.argsOf 0)).map (·.1.shown) ≠ (w'.heap.dict (w'.argsOf 0)).map (·.1.shown) ∧
    ∀ k, Option.Rel (fun v v' => sameAtom v v') ((w.heap.dict (w.argsOf 0)).get? k)
      ((w'.heap.dict (w'.argsOf 0)).get? k) := by
  have result : (soleSteps (delaying 5 1) 100 (supplied (delaying 5 1) [] 3)).any fun w =>
      (soleSteps (delaying 1 5) 100 (supplied (delaying 1 5) [] 3)).any fun w' =>
        w.isClear && w'.isClear && w.writesApart 0 && allAgree w 0 w' 0 && (w.heap.dict (w.argsOf 0)).length == 2 &&
          (w.heap.dict (w.argsOf 0)).map (·.1.shown) != (w'.heap.dict (w'.argsOf 0)).map (·.1.shown) := by
    decide +kernel
  obtain ⟨w, steps, result⟩ := (Option.any_eq_true _ _).mp result
  obtain ⟨w', steps', all⟩ := (Option.any_eq_true _ _).mp result
  simp only [Bool.and_eq_true, beq_iff_eq, bne_iff_ne] at all
  obtain ⟨⟨⟨⟨⟨clear, clear'⟩, apart⟩, agree⟩, length⟩, orders⟩ := all
  have declares : (delaying 5 1).tree.Declares := by
    unfold Tree.Declares
    decide +kernel
  obtain ⟨execution, sole⟩ := execution_of_soleSteps steps clear
  obtain ⟨execution', sole'⟩ := execution_of_soleSteps steps' clear'
  have compiled : Graph.compile (.list (delayingItems 5 1)) = .ok (delaying 5 1).tree := rfl
  have compiled' : Graph.compile (.list (delayingItems 1 5)) = .ok (delaying 1 5).tree := rfl
  obtain ⟨⟨ms, resolved⟩, ⟨ms', resolved'⟩, executes, shown, args⟩ :=
    results_do_not_depend_on_schedule compiled compiled' rfl declares execution execution' .nil
      (agrees_of_allAgree agree)
      fun n m r payload r' payload' k beside completed completed' =>
        unset_of_writesApart apart (Tree.compiled_of_compile compiled) declares beside completed completed'
  exact ⟨w, w', ms, ms', resolved, resolved', executes, shown sole sole', length, orders, args⟩

end World

end Conductor
