import Conductor.Proofs.Selection

/-!
# The life of a node

In a run that has the nodes for itself a node is idle until it is called, executing until it completes, and
executed from then on. It is called once, however often and whenever its descriptor is used, and nothing
is executing any more when the run has resolved.
-/

namespace Conductor

/-- How far a node is in a run. -/
inductive Life where
  | idle | executing | executed
  deriving DecidableEq

namespace Life

def rank : Life → Nat
  | idle => 0
  | executing => 1
  | executed => 2

end Life

def NodeState.IsAt (s : NodeState) : Life → Prop
  | .idle => s = {}
  | .executing => s.executing ∧ s.executed = false ∧ s.output = .atom .null ∧ s.outputPath = .atom .null ∧
      s.duration = 0
  | .executed => s.executing = false ∧ s.executed

theorem NodeState.IsAt.unique {s : NodeState} {life life' : Life} (at_ : s.IsAt life) (at' : s.IsAt life') :
    life = life' := by
  cases life <;> cases life' <;> simp_all [NodeState.IsAt]

namespace World

variable {plan : Plan} {w w' : World} {run : RunId} {n : Node} {h : Head} {slot : Nat} {s : NodeState}
  {notes : List Note} {life life' : Life}

def callCount (w : World) (run : RunId) (slot : Nat) : Nat :=
  w.notes.countP fun x => x.1 == run && (Stage.call.reached? x.2).any fun h => h.slot == slot

/-- Whether the node with a slot shows just how far it is by some notes of a run, with the args that it was
called with and the output that was merged. -/
inductive Lived (plan : Plan) (run : RunId) (notes : List Note) (slot : Nat) : NodeState → Prop where
  | idle (uncalled : ∀ h args, h.slot = slot → (run, .called h args) ∉ notes)
      (uncompleted : ∀ h r payload, h.slot = slot → (run, .completed h r payload) ∉ notes) :
      Lived plan run notes slot {}
  | executing {h : Head} {args : Entries} (own : h.slot = slot) (called : (run, .called h args) ∈ notes)
      (uncompleted : ∀ h r payload, h.slot = slot → (run, .completed h r payload) ∉ notes) :
      Lived plan run notes slot
        { executing := true, args := if plan.settings.snapshotArgs then args else [] }
  | executed {h h' : Head} {args payload shown : Entries} {r : Result} {ms : Nat} (own : h.slot = slot)
      (called : (run, .called h args) ∈ notes) (own' : h'.slot = slot)
      (completed : (run, .completed h' r payload) ∈ notes) :
      Lived plan run notes slot
        { args := shown, output := r.payload, outputPath := r.path, executed := true, duration := ms }

theorem lived_traceable : Traceable plan run (Lived plan run) where
  fresh notes slot none :=
    .idle (fun h args _ called => none .call _ h called rfl)
      fun h r payload _ completed => none .complete _ h completed rfl
  elsewhere notes x slot s lived other := by
    -- what is new is about another node
    have uncalled {h : Head} {args : Entries} (own : h.slot = slot)
        (there : (run, .called h args) ∈ (run, x) :: notes) :
        (run, .called h args) ∈ notes :=
      (List.mem_cons.mp there).resolve_left fun now => other .call h ((Prod.mk.inj now).2 ▸ rfl) own
    have uncompleted {h : Head} {r : Result} {payload : Entries} (own : h.slot = slot)
        (there : (run, .completed h r payload) ∈ (run, x) :: notes) : (run, .completed h r payload) ∈ notes :=
      (List.mem_cons.mp there).resolve_left fun now => other .complete h ((Prod.mk.inj now).2 ▸ rfl) own
    cases lived with
    | idle none none' =>
      exact .idle (fun h args own there => none h args own (uncalled own there))
        fun h r payload own there => none' h r payload own (uncompleted own there)
    | executing own called none =>
      exact .executing own (List.mem_cons_of_mem _ called)
        fun h r payload own there => none h r payload own (uncompleted own there)
    | executed own called own' completed =>
      exact .executed own (List.mem_cons_of_mem _ called) own' (List.mem_cons_of_mem _ completed)
  called notes h args s lived fresh := by
    cases lived with
    | idle _ none =>
      exact .executing rfl List.mem_cons_self
        fun h' r payload own there => none h' r payload own ((List.mem_cons.mp there).resolve_left (by simp))
    | executing own called _ => exact (fresh _ _ own called).elim
    | executed own called _ _ => exact (fresh _ _ own called).elim
  completed notes h r payload ms s lived fresh called := by
    obtain ⟨args, called⟩ := called
    cases lived with
    | idle none _ => exact (none h args rfl called).elim
    | executing _ _ _ => exact .executed rfl (List.mem_cons_of_mem _ called) rfl List.mem_cons_self
    | executed _ _ own' completed => exact (fresh _ _ _ own' completed).elim

/-! ### What a life tells -/

theorem Lived.isAt (lived : Lived plan run notes slot s) : ∃ life, s.IsAt life := by
  cases lived with
  | idle _ _ => exact ⟨.idle, rfl⟩
  | executing _ _ _ => exact ⟨.executing, rfl, rfl, rfl, rfl, rfl⟩
  | executed _ _ _ _ => exact ⟨.executed, rfl, rfl⟩

theorem Lived.called_iff (lived : Lived plan run notes slot s) :
    ¬ s.IsAt .idle ↔ ∃ h args, h.slot = slot ∧ (run, .called h args) ∈ notes := by
  cases lived with
  | idle none _ => exact ⟨fun busy => (busy rfl).elim, fun ⟨h, args, own, called⟩ => (none h args own called).elim⟩
  | executing own called _ => exact ⟨fun _ => ⟨_, _, own, called⟩, fun _ idle => by simp [NodeState.IsAt] at idle⟩
  | executed own called _ _ => exact ⟨fun _ => ⟨_, _, own, called⟩, fun _ idle => by simp [NodeState.IsAt] at idle⟩

theorem Lived.completed_iff (lived : Lived plan run notes slot s) :
    s.IsAt .executed ↔ ∃ h r payload, h.slot = slot ∧ (run, .completed h r payload) ∈ notes := by
  cases lived with
  | idle _ none =>
    exact ⟨fun executed => (nomatch executed.2),
      fun ⟨h, r, payload, own, completed⟩ => (none h r payload own completed).elim⟩
  | executing _ _ none =>
    exact ⟨fun executed => (nomatch executed.2),
      fun ⟨h, r, payload, own, completed⟩ => (none h r payload own completed).elim⟩
  | executed _ _ own' completed => exact ⟨fun _ => ⟨_, _, _, own', completed⟩, fun _ => ⟨rfl, rfl⟩⟩

theorem Lived.output (lived : Lived plan run notes slot s) (executed : s.IsAt .executed) :
    ∃ h r payload, h.slot = slot ∧ (run, .completed h r payload) ∈ notes ∧ s.output = r.payload ∧
      s.outputPath = r.path := by
  cases lived with
  | idle _ _ => cases executed.2
  | executing _ _ _ => cases executed.2
  | executed _ _ own' completed => exact ⟨_, _, _, own', completed, rfl, rfl⟩

theorem Lived.mono {more : List Note} {s' : NodeState} (lived : Lived plan run notes slot s)
    (lived' : Lived plan run more slot s') (grown : notes ⊆ more) (here : s.IsAt life) (there : s'.IsAt life') :
    life.rank ≤ life'.rank := by
  have forth (executed : s.IsAt .executed) : s'.IsAt .executed := by
    obtain ⟨h, r, payload, own, completed⟩ := lived.completed_iff.mp executed
    exact lived'.completed_iff.mpr ⟨h, r, payload, own, grown completed⟩
  have busy (other : ¬ s.IsAt .idle) : ¬ s'.IsAt .idle := by
    obtain ⟨h, args, own, called⟩ := lived.called_iff.mp other
    exact lived'.called_iff.mpr ⟨h, args, own, grown called⟩
  cases life with
  | idle => exact Nat.zero_le _
  | executing =>
    cases life' with
    | idle => exact (busy (fun idle => nomatch here.unique idle) there).elim
    | _ => decide
  | executed =>
    obtain rfl := there.unique (forth here)
    exact Nat.le_refl _

theorem Reachable.callCount_le (reached : Reachable plan w) (compiled : plan.tree.Compiled) (run : RunId)
    (slot : Nat) : w.callCount run slot ≤ 1 := by
  let a : Account := ⟨plan.tree, run, .call, slot⟩
  have most : a.total w ≤ 1 := reached.total_le_one compiled rfl
  have paid : w.callCount run slot = a.paid w.notes := rfl
  unfold Account.total at most
  omega

theorem callCount_pos : 0 < w.callCount run slot ↔ ∃ h args, h.slot = slot ∧ (run, .called h args) ∈ w.notes := by
  rw [callCount, List.countP_pos_iff]
  constructor
  · rintro ⟨⟨other, x⟩, member, counts⟩
    simp only [Bool.and_eq_true, beq_iff_eq] at counts
    obtain ⟨rfl, counts⟩ := counts
    cases x with
    | called h args => exact ⟨h, args, by simpa [Stage.reached?] using counts, member⟩
    | _ => simp [Stage.reached?] at counts
  · rintro ⟨h, args, own, member⟩
    exact ⟨_, member, by simp [Stage.reached?, own]⟩

/-! ### The notes of a node -/

section Notes

variable (reached : Reachable plan w) (compiled : plan.tree.Compiled) (known : n ∈ plan.tree.nodes)
  (lived : Lived plan run w.course n.slot (w.nodeState n))
include reached compiled known

theorem Reachable.called_at : (∃ h args, h.slot = n.slot ∧ (run, .called h args) ∈ w.course) ↔
    ∃ args, (run, .called n.head args) ∈ w.notes := by
  constructor
  · rintro ⟨h, args, own, called⟩
    have noted := List.mem_of_mem_filter called
    obtain ⟨m, rfl, stood⟩ := reached.stood compiled noted
    obtain rfl := compiled.eq_of_slot stood.mem known own
    exact ⟨args, noted⟩
  · exact fun ⟨args, called⟩ => ⟨n.head, args, rfl, List.mem_filter.mpr ⟨called, rfl⟩⟩

theorem Reachable.completed_at {r : Result} {payload : Entries} (own : h.slot = n.slot)
    (completed : (run, .completed h r payload) ∈ w.course) : (run, .completed n.head r payload) ∈ w.notes := by
  have noted := List.mem_of_mem_filter completed
  obtain ⟨m, rfl, stood⟩ := reached.completed_stood compiled noted
  obtain rfl := compiled.eq_of_slot stood.mem known own
  exact noted

include lived

/-- A node is executing just if it has been called and has not completed. -/
theorem Lived.executing_iff : (w.nodeState n).IsAt .executing ↔
    (∃ args, (run, .called n.head args) ∈ w.notes) ∧ ∀ r payload, (run, .completed n.head r payload) ∉ w.notes := by
  rw [← reached.called_at compiled known, ← lived.called_iff]
  constructor
  · intro now
    refine ⟨fun idle => (nomatch now.unique idle), fun r payload completed => ?_⟩
    have done := lived.completed_iff.mpr ⟨n.head, r, payload, rfl, List.mem_filter.mpr ⟨completed, rfl⟩⟩
    cases now.unique done
  · rintro ⟨busy, none⟩
    obtain ⟨life, here⟩ := lived.isAt
    cases life with
    | idle => exact (busy here).elim
    | executing => exact here
    | executed =>
      obtain ⟨h, r, payload, own, completed⟩ := lived.completed_iff.mp here
      exact (none r payload (reached.completed_at compiled known own completed)).elim

theorem Lived.callCount : ((w.nodeState n).IsAt .idle → w.callCount run n.slot = 0) ∧
    (¬ (w.nodeState n).IsAt .idle → w.callCount run n.slot = 1) := by
  have most := reached.callCount_le compiled run n.slot
  have count : 0 < w.callCount run n.slot ↔ ¬ (w.nodeState n).IsAt .idle := by
    rw [lived.called_iff, reached.called_at compiled known, callCount_pos]
    constructor
    · exact fun ⟨h, args, own, called⟩ => (reached.called_at compiled known).mp
        ⟨h, args, own, List.mem_filter.mpr ⟨called, rfl⟩⟩
    · exact fun ⟨args, called⟩ => ⟨n.head, args, rfl, called⟩
  refine ⟨fun idle => ?_, fun busy => ?_⟩
  · have none := mt count.mp (not_not_intro idle)
    omega
  · have some := count.mpr busy
    omega

end Notes

/-! ### Runs that are alone -/

theorem Calm.grown (calm : Relation.ReflTransGen (Calm plan) w w') (reached : Reachable plan w)
    (compiled : plan.tree.Compiled) (alone : Alone plan w run) : w.course ⊆ w'.course := by
  induction calm with
  | refl => exact List.Subset.refl _
  | tail before last ih =>
    have reached' := (Alone.calms before reached compiled alone).1
    intro x member
    obtain ⟨noted, counts⟩ := List.mem_filter.mp (ih member)
    exact List.mem_filter.mpr ⟨(last.move.grown reached'.sound.steady).subset_notes noted, counts⟩

theorem Traced.calms {P : List Note → Nat → NodeState → Prop} (traceable : Traceable plan run P)
    (calm : Relation.ReflTransGen (Calm plan) w w') (reached : Reachable plan w)
    (compiled : plan.tree.Compiled) (alone : Alone plan w run) (traced : Traced P w) : Traced P w' := by
  induction calm with
  | refl => exact traced
  | tail before last ih =>
    obtain ⟨reached', alone'⟩ := Alone.calms before reached compiled alone
    exact last.traced traceable alone' reached' compiled ih

/-- A node of a run that has the runner for itself is idle, executing or executed, and never goes back. It is
called once, when it ceases to be idle, and shows the output that was merged once it has executed. When
the run has resolved nothing is executing, and when it is rejected just those nodes are that were called
and whose result was never merged. -/
theorem node_goes_through_its_life {graph : Item} (compiled : Graph.compile graph = .ok plan.tree)
    {u v : World} {t : FutureId} {given : Value} {stack : List Frame} (reached : Reachable plan u)
    (sized : u.nodes.size = plan.tree.nodeCount) (starting : u.focus = .enter t (.runner given) stack)
    (free : ∀ other < u.records.size, u.isSettled other) (started : u.step plan = some v)
    (new : v.records.size = u.records.size + 1) (calm : Relation.ReflTransGen (Calm plan) v w)
    (known : n ∈ plan.tree.nodes) :
    (∃! life, (w.nodeState n).IsAt life) ∧
    (∀ w' life life', Relation.ReflTransGen (Calm plan) w w' → (w.nodeState n).IsAt life →
      (w'.nodeState n).IsAt life' → life.rank ≤ life'.rank) ∧
    ((w.nodeState n).IsAt .idle → w.callCount u.records.size n.slot = 0) ∧
    (¬ (w.nodeState n).IsAt .idle → w.callCount u.records.size n.slot = 1) ∧
    ((w.nodeState n).IsAt .executed → ∃ r payload, (u.records.size, .completed n.head r payload) ∈ w.notes ∧
      (w.nodeState n).output = r.payload ∧ (w.nodeState n).outputPath = r.path) ∧
    (∀ ms, w.status u.records.size = .resolved ms → ¬ (w.nodeState n).IsAt .executing) ∧
    ∀ ms e, w.status u.records.size = .rejected ms e → ((w.nodeState n).IsAt .executing ↔
      (∃ args, (u.records.size, .called n.head args) ∈ w.notes) ∧
        ∀ r payload, (u.records.size, .completed n.head r payload) ∉ w.notes) := by
  have compiled' := Tree.compiled_of_compile compiled
  have reached₁ : Reachable plan v := .move reached (.stepped started)
  have alone₁ := Alone.start reached sized starting free started new
  have traced₁ := (traced_start lived_traceable reached starting started new).1
  obtain ⟨reached', alone⟩ := Alone.calms calm reached₁ compiled' alone₁
  have traced := Traced.calms lived_traceable calm reached₁ compiled' alone₁ traced₁
  have lives {x : World} (alone : Alone plan x u.records.size) (traced : Traced (Lived plan u.records.size) x) :
      Lived plan u.records.size x.course n.slot (x.nodeState n) := by
    have bound := Tree.slot_lt_of_compile compiled known
    rw [← alone.size] at bound
    exact traced n.slot _ (by simp [nodeState, bound])
  have lived := lives alone traced
  have executing_iff := lived.executing_iff reached' compiled' known
  obtain ⟨life, here⟩ := lived.isAt
  obtain ⟨uncalled, called⟩ := lived.callCount reached' compiled' known
  refine ⟨⟨life, here, fun other there => there.unique here⟩, fun w' life life' further here there => ?_, uncalled,
    called, fun executed => ?_, fun ms resolved executing => ?_, fun _ _ _ => executing_iff⟩
  · have alone' := (Alone.calms further reached' compiled' alone).2
    have traced' := Traced.calms lived_traceable further reached' compiled' alone traced
    exact lived.mono (lives alone' traced') (Calm.grown further reached' compiled' alone) here there
  · obtain ⟨h, r, payload, own, completed, output, path⟩ := lived.output executed
    exact ⟨r, payload, reached'.completed_at compiled' known own completed, output, path⟩
  · obtain ⟨⟨args, called⟩, none⟩ := executing_iff.mp executing
    obtain ⟨m, member, own, r, ran, -⟩ := reached'.resolved_ran compiled' resolved called
    obtain ⟨payload, completed⟩ := ran.completed
    exact none r payload (own ▸ completed)

/-- A group whose only member completes at once, waits, and completes again. -/
def doublingItems : List Item := [.list [.leaf (.object 0 0) (.function {
  label := "a"
  isAsync := true
  signature := [⟨"args", .standard, false⟩, ⟨"store", .standard, false⟩, ⟨"completion", .standard, false⟩]
  steps := [.call [], .sleep 1, .call [.text "x"]] } {})]]

def doubling : Plan where
  tree := Graph.compileItems doublingItems

/-- The member has been called once and has executed when the run has resolved. -/
theorem doubled_completion_executes_once : ∃ w ms n, Reachable doubling w ∧ w.status 0 = .resolved ms ∧ n.slot = 0 ∧
    (w.nodeState n).IsAt .executed ∧ ¬ (w.nodeState n).IsAt .executing ∧ w.callCount 0 0 = 1 := by
  let u := firstRun doubling 2
  let v := firstRun doubling 3
  have reached : Reachable doubling u := reachable_firstRun doubling 2
  have compiled : Graph.compile (.list doublingItems) = .ok doubling.tree := rfl
  have starting : u.focus = .enter 0 (.runner (.atom .null)) [] := rfl
  have started : u.step doubling = some v := rfl
  have result : (calmSteps doubling 45 v).any fun w => isResolved w 0 &&
      doubling.tree.nodes.any fun n => n.slot == 0 && (w.nodeState n).executed := by decide +kernel
  obtain ⟨w, steps, all⟩ := (Option.any_eq_true _ _).mp result
  simp only [Bool.and_eq_true, List.any_eq_true, beq_iff_eq] at all
  obtain ⟨settled, n, known, slot, executed⟩ := all
  obtain ⟨ms, resolved⟩ := exists_of_isResolved settled
  have calm := calm_of_calmSteps steps
  have reached' : Reachable doubling w := by
    have alone := Alone.start reached rfl starting (fun _ earlier => nomatch earlier) started rfl
    exact (Alone.calms calm (.move reached (.stepped started)) (Tree.compiled_of_compile compiled) alone).1
  obtain ⟨⟨life, here, -⟩, -, -, once, -, quiet, -⟩ := node_goes_through_its_life compiled reached rfl starting
    (fun _ earlier => nomatch earlier) started rfl calm known
  have busy : ¬ (w.nodeState n).IsAt .idle := by
    intro idle
    rw [show w.nodeState n = {} from idle] at executed
    cases executed
  have count := once busy
  rw [slot] at count
  refine ⟨w, ms, n, reached', resolved, slot, ?_, quiet ms resolved, count⟩
  cases life with
  | idle => exact (busy here).elim
  | executing => exact (quiet ms resolved here).elim
  | executed => exact here

end World

end Conductor
