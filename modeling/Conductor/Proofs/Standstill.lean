import Conductor.Proofs.Lifetime

/-!
# Standstills

When a machine has nothing left to do, every task of a run that has not ended waits in the end for user
code: for the coroutine or the future that a node in sequence has returned, for the report of a member,
or for the body of a member that has completed. The executor never waits for itself.
-/

namespace Conductor.World

variable {plan : Plan} {w : World} {run : RunId} {t f : FutureId} {stack : List Frame} {n : Node} {goal : Aim}
  {aim : FutureId → Aim}

/-- Whether user code of a node owes its run something that a task waits for. -/
inductive Owes (w : World) (run : RunId) (n : Node) : Prop where
  /-- The coroutine that the call of a node in sequence has returned has not ended. -/
  | inside {call : Call} {t : FutureId} {frames stack : List Frame} {waiting : Option FutureId}
      (own : call.node = n) (stands : w.Stands t (.suspended (frames ++ .returning run call :: stack)) waiting)
      (foreign : ∀ frame ∈ frames, frame.run? = none) (began : (run, .began n.head none) ∈ w.notes)
  /-- The future that the call of a node in sequence has returned is pending. -/
  | outside {call : Call} {t b : FutureId} {stack : List Frame} (own : call.node = n)
      (stands : w.Stands t (.suspended (.returning run call :: stack)) (some b))
      (began : (run, .began n.head (some b)) ∈ w.notes) (pending : w.settlement? b = none)
  /-- The chain of a member waits for a descriptor that has neither been called nor been failed. -/
  | unreported {call : Call} {body : Option FutureId} {t f : FutureId} {stack : List Frame} {args : Entries}
      (own : call.node = n) (stands : w.Stands t (.suspended (.completing run call body :: stack)) (some f))
      (called : (run, .called n.head args) ∈ w.notes) (report : w.first? call.completion = some f)
      (pending : w.settlement? f = none)
  /-- The body of a member that has completed is pending. -/
  | lingering {r : Result} {payload : Entries} {b : FutureId}
      (completed : (run, .completed n.head r payload) ∈ w.notes) (began : (run, .began n.head (some b)) ∈ w.notes)
      (pending : w.settlement? b = none)

/-- A stack that relies on nothing goes on, for a run, after a coroutine of one of its nodes. -/
theorem Fits.inside_of_loose {a : Aim} (fits : Fits plan aim w goal a stack) (loose : a = .loose)
    (own : goal.run? = some run) : ∃ frames other call rest, stack = frames ++ .returning other call :: rest ∧
      (∀ frame ∈ frames, frame.run? = none) ∧ (other, .began call.node.head none) ∈ w.notes := by
  induction fits with
  | base reaches =>
    subst loose
    rcases reaches with rfl | rfl <;> cases own
  | played foreign _ ih =>
    obtain ⟨frames, other, call, rest, rfl, others, began⟩ := ih rfl
    exact ⟨_ :: frames, other, call, rest, rfl, List.forall_mem_cons.mpr ⟨foreign, others⟩, began⟩
  | inside called stood began none rest _ => exact ⟨[], _, _, _, rfl, by simp, began⟩
  | branches _ spans _ _ => cases loose
  | _ => cases loose

theorem Chained.of_mem {members : List Entry} {chains : List FutureId} {c : FutureId}
    (chained : Chained aim w run members chains) (member : c ∈ chains) :
    ∃ m ∈ members, aim c = .entry run m ∧ w.kind? c = some .task := by
  unfold Chained at chained
  induction chained with
  | nil => cases member
  | cons first _ ih =>
    rcases List.mem_cons.mp member with rfl | later
    · exact ⟨_, List.mem_cons_self, first⟩
    · obtain ⟨m, there, own⟩ := ih later
      exact ⟨m, List.mem_cons_of_mem _ there, own⟩

theorem exists_uncounted {children done : List FutureId} (distinct : children.Nodup)
    (few : done.length < children.length) : ∃ c ∈ children, c ∉ done := by
  by_contra all
  push Not at all
  exact absurd (List.subperm_of_subset distinct all).length_le (Nat.not_le.mpr few)

namespace Runs

variable (runs : Runs plan run w) (done : w.step plan = none)
include runs done

/-- A group that has not ended when nothing is left to do waits for one of its chains. -/
theorem pending_chain {chains : List FutureId} (joint : w.kind? f = some (.joint chains))
    (pending : w.settlement? f = none) (since : ∀ c ∈ chains, w.Since run c) :
    ∃ c ∈ chains, w.settlement? c = none := by
  obtain ⟨q, own, kind⟩ := Option.map_eq_some_iff.mp joint
  obtain ⟨ended, joins⟩ : ∃ ended, w.Joins f chains ended := by
    cases q with
    | joint cs ended requested =>
      obtain rfl := Kind.joint.inj kind
      exact ⟨ended, requested, own⟩
    | _ => cases kind
  obtain ⟨distinct, short, counted, few, told⟩ := runs.reachable.wakes.counts f chains ended joins pending
  obtain ⟨c, member, uncounted⟩ := exists_uncounted distinct (Nat.lt_of_le_of_lt few short)
  refine ⟨c, member, ?_⟩
  rcases (told c member).resolve_left uncounted with there | closed
  · exact runs.reachable.sound.lanes.pending done there rfl (runs.home (since c member))
  · exact absurd closed (runs.thawed (since c member))

/-- A task of a run that has not ended when nothing is left to do waits, perhaps through others, for user
code that owes the run something. -/
theorem owes (compiled : plan.tree.Compiled) (ordered : Ordered plan aim w) (loyal : Loyal aim w)
    (own : (aim t).run? = some run)
    (task : w.kind? t = some .task) (pending : w.settlement? t = none) : ∃ n, w.Owes run n := by
  -- whoever a task waits for is newer than the task
  induction left : w.futures.size - t using Nat.strongRecOn generalizing t with
  | ind left ih =>
  subst left
  have since {t : FutureId} (own : (aim t).run? = some run) (task : w.kind? t = some .task) : w.Since run t := by
    obtain ⟨o, outcome, later⟩ := loyal.known t run own
    exact ⟨o, outcome, later, kind?_lt task⟩
  obtain ⟨stack, f, stood⟩ := runs.suspended done (since own task) task pending
  obtain ⟨frames, waits⟩ := (runs.reachable.dated compiled).suspended t stack _ stood
  have mine {other : RunId} (stacked : Stacks other stack) : other = run :=
    Option.some.inj ((loyal.stands t _ _ other stood stacked).symm.trans own)
  have unsettled {frame : Frame} {rest : List Frame} (top : stack = frame :: rest) (belongs : frame.run? = some run) :
      w.settlement? f = none :=
    runs.unsettled done stood pending (waits f rfl frame (by rw [top]; exact rfl) run belongs)
  have inside (fits : Fits plan aim w (aim t) .loose stack) : ∃ n, w.Owes run n := by
    obtain ⟨frames, other, call, rest, rfl, foreign, began⟩ := fits.inside_of_loose rfl own
    obtain rfl := mine ⟨.returning other call, by simp, rfl⟩
    exact ⟨call.node, .inside rfl stood foreign began⟩
  obtain ⟨a, fits, rfl | ⟨f', same, rfl⟩⟩ := ordered.suspended t stack _ stood
  · exact inside fits
  obtain rfl := Option.some.inj same
  generalize reached : Aim.success f = a at fits
  cases fits with
  | base reaches =>
    subst reached
    rcases reaches with there | there <;> rw [there] at own <;> cases own
  | played foreign rest => exact inside (.played foreign rest)
  | @outside other call f' rest called stood' began none only old unawaited fits =>
    obtain rfl := Aim.success.inj reached
    obtain rfl := mine ⟨.returning other call, by simp, rfl⟩
    exact ⟨call.node, .outside rfl stood began (unsettled rfl rfl)⟩
  | @joining other g members chains rest joint chained fits =>
    obtain rfl := Aim.success.inj reached
    obtain rfl := mine ⟨.joining other, by simp, rfl⟩
    have aimed : ∀ c ∈ chains, (aim c).run? = some other ∧ w.kind? c = some .task := by
      intro c member
      obtain ⟨m, -, aims, kind⟩ := chained.of_mem member
      exact ⟨by rw [aims]; rfl, kind⟩
    obtain ⟨c, member, open'⟩ := runs.pending_chain done joint (unsettled rfl rfl) fun c member =>
      since (aimed c member).1 (aimed c member).2
    obtain ⟨own', task'⟩ := aimed c member
    have later := (runs.reachable.above compiled).joining t f other rest chains (.inr stood) joint c member
    exact ih (w.futures.size - c) (Nat.sub_lt_sub_left (kind?_lt task) later) own' task' open' rfl
  | @completing other call body f' rest tended report fits =>
    obtain rfl := Aim.success.inj reached
    obtain rfl := mine ⟨.completing other call body, by simp, rfl⟩
    obtain ⟨args, called⟩ := tended.dates.called
    exact ⟨call.node, .unreported rfl stood called report (unsettled rfl rfl)⟩
  | @ending other call b g r payload rest waiter tended reported completed followed routed fits =>
    obtain rfl := Aim.success.inj reached
    obtain rfl := mine ⟨.ending other call b, by simp, rfl⟩
    have newer : w.Since other b := ((datedStack_cons.mp frames).1 other rfl).refs b (by simp [Frame.refs])
    have earlier := (runs.reachable.above compiled).ending t f other call b rest (.inr stood) waiter
    refine ⟨call.node, .lingering completed (tended.began b rfl) ?_⟩
    rcases runs.reachable.wakes.frees f b earlier waiter (unsettled rfl rfl) with there | closed
    · exact runs.reachable.sound.lanes.pending done there rfl (runs.home newer)
    · exact absurd closed (runs.thawed newer)
  | _ => cases reached

end Runs

end Conductor.World
