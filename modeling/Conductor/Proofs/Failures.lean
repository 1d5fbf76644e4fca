import Conductor.Proofs.Sequences

/-!
# Failures

No failure is lost. A node that fails before it has been followed to its end takes what is owed of it
along, so that the node is never followed: a run that has resolved has followed all nodes it called.
What fails later rejects its run, which has not settled by then.
-/

namespace Conductor.World

open Account

variable {plan : Plan} {w w' : World} {run : RunId} {n : Node} {h : Head} {args payload : Entries}
  {r : Result} {e : Raised} {b : FutureId} {ms : Nat} {t : FutureId} {stack : List Frame}
  {notes pre : List Note} {next : Focus}

/-! ### Runs that have resolved -/

theorem Noting.status (noting : Noting plan w notes w') (run : RunId) :
    w'.status run = w.status run ∨
      w.status run = .running ∧ (run, .settled (w'.status run)) ∈ notes := by
  cases noting with
  | acted act => exact (act.effect.status run).imp_right fun ⟨before, _, noted⟩ => ⟨before, noted⟩
  | told _ next ends _ =>
    rw [← status_congr (nextJob_sameRuns next).records run]
    exact (ends.effect.status run).imp_right fun ⟨before, _, noted⟩ => ⟨before, noted⟩
  | quiet quiet => exact .inl (status_congr quiet.records run)

theorem Reachable.done (reached : Reachable plan w) (compiled : plan.tree.Compiled)
    (resolved : w.status run = .resolved ms) : w.Done run (.nested plan.tree.branches) := by
  induction reached generalizing ms with
  | fresh fresh => simp [status, record?, fresh.records] at resolved
  | @move w w' before m ih =>
    obtain ⟨notes, noting⟩ := m.noting before.sound
    have after := m.later before compiled
    rcases noting.status run with same | ⟨running, settled⟩
    · exact (ih (same ▸ resolved)).later after
    · rw [resolved] at settled
      cases noting.happens settled with
      | resolved _ here =>
        obtain ⟨aim, ordered⟩ := before.ordered compiled
        obtain ⟨a, holds, fits⟩ := ordered.left here
        cases fits with
        | played own _ => cases own
        | drive _ _ =>
          refine ((holds _ rfl).resolve_left fun settled => ?_).later after
          rw [isSettled, running] at settled
          cases settled

theorem Reachable.resolved_ran (reached : Reachable plan w) (compiled : plan.tree.Compiled)
    (resolved : w.status run = .resolved ms) (called : (run, .called h args) ∈ w.notes) :
    ∃ n ∈ plan.tree.nodes, n.head = h ∧ ∃ r, w.Ran run n r ∧ w.Routed run n r := by
  obtain ⟨n, rfl, stood⟩ := reached.stood compiled called
  refine ⟨n, stood.mem, rfl, ?_⟩
  cases reached.done compiled resolved with
  | nested all =>
    obtain ⟨i, e, found, within⟩ := Tree.entry_of_mem stood.mem
    exact reached.ran compiled (all e (List.mem_of_getElem? found)) .root found within called

/-! ### What completes, and what is awaited -/

theorem Reachable.mergeable (reached : Reachable plan w)
    (completed : (run, .completed h r payload) ∈ w.notes) : r.payload.isMergeable := by
  refine reached.forall_notes (P := fun _ x => ∀ h r payload, x.2 = .completed h r payload → r.payload.isMergeable)
    (fun _ _ _ earlier => earlier) (fun _ _ noting x new h r payload same => ?_) _ completed _ _ _ rfl
  obtain ⟨run, x⟩ := x
  obtain rfl : x = _ := same
  cases noting.happens new with
  | completed _ _ _ mergeable _ _ => exact mergeable

theorem Reachable.awaits (reached : Reachable plan w) (waits : w.Awaits run b) :
    ∃ h, (run, .began h (some b)) ∈ w.notes := by
  induction reached with
  | fresh fresh =>
    obtain ⟨node, c, explicit, member⟩ := waits
    simp [jobs, fresh.agenda, fresh.futures] at member
  | move before m ih =>
    rcases m.awaits before.sound.steady waits with old | ⟨notes, tasks, w₁, next, h, act, rfl, member⟩
    · obtain ⟨h, began⟩ := ih old
      exact ⟨h, (m.grown before.sound.steady).subset_notes began⟩
    · exact ⟨h, (Noting.acted act).noted ▸ List.mem_append_left _ member⟩

theorem Reachable.unawaited (reached : Reachable plan w) (compiled : plan.tree.Compiled)
    (resolved : w.status run = .resolved ms) : ¬ w.Awaits run b := by
  intro waits
  obtain ⟨h, began⟩ := reached.awaits waits
  obtain ⟨args, called⟩ := reached.begun began
  obtain ⟨n, -, rfl, r, ran, -⟩ := reached.resolved_ran compiled resolved called
  obtain ⟨s, -, unawaited, -⟩ := ran.bodies b began
  exact unawaited run waits

/-! ### Nodes that fail -/

def following (plan : Plan) (run : RunId) (h : Head) : Account := ⟨plan.tree, run, .follow, h.slot⟩

theorem Reachable.following_le_one (reached : Reachable plan w) (compiled : plan.tree.Compiled) (run : RunId)
    (h : Head) : (following plan run h).total w ≤ 1 := reached.total_le_one compiled rfl

theorem Reachable.following_paid (reached : Reachable plan w) (compiled : plan.tree.Compiled)
    (resolved : w.status run = .resolved ms) (called : (run, .called h args) ∈ w.notes) :
    0 < (following plan run h).paid w.notes := by
  obtain ⟨n, -, rfl, r, ran, -⟩ := reached.resolved_ran compiled resolved called
  exact paid_pos (a := following plan run n.head) ran.followed rfl rfl rfl

theorem following_share (plan : Plan) (run : RunId) (n : Node) : (following plan run n.head).share run [n] = 1 := by
  simp [following, share, weight, Node.slot]

/-- Whether the failure of a node that is noted keeps its run from resolving: the run is rejected, or
the node is not followed any more, or what it selects has failed and is just about to reject the run. -/
inductive Spoiled (plan : Plan) (w : World) (run : RunId) (h : Head) : Prop where
  | rejected {ms : Nat} {e : Raised} (rejected : w.status run = .rejected ms e)
  | dropped {args : Entries} (called : (run, .called h args) ∈ w.notes)
      (none : (following plan run h).total w = 0)
  | falling {args : Entries} {t : FutureId} {e : Raised} {call : Call} {body : Option FutureId}
      {stack : List Frame} (called : (run, .called h args) ∈ w.notes) (own : call.node.head = h)
      (ordinary : e.fault.isOrdinary) (here : w.focus = .leave t (.error e) (.following run call body :: stack))

theorem Spoiled.unresolved (spoiled : Spoiled plan w run h) (reached : Reachable plan w)
    (compiled : plan.tree.Compiled) : w.status run ≠ .resolved ms := by
  intro resolved
  cases spoiled with
  | rejected rejected =>
    rw [resolved] at rejected
    cases rejected
  | dropped called none =>
    have paid := reached.following_paid compiled resolved called
    unfold total at none
    omega
  | @falling _ _ _ call _ stack called own _ here =>
    subst own
    have paid := reached.following_paid compiled resolved called
    have most := reached.following_le_one compiled run call.node.head
    have share := following_share plan run call.node
    -- the frame still owes the node that has been followed already
    have owed : 1 ≤ (following plan run call.node.head).ofFocus w.focus := by
      rw [here, ofFocus, ofStack_cons]
      exact Nat.le_add_right_of_le (Nat.le_of_eq share.symm)
    unfold total at most
    omega

theorem Move.rejected (steady : w.Steady) (m : Move plan w w') (past : w.isSettled run)
    (other : ∀ ms, w.status run ≠ .resolved ms) : ∃ ms e, w'.status run = .rejected ms e := by
  obtain ⟨-, -, same, -⟩ := m.inert steady past
  have kept : w'.status run = w.status run := by rw [status, status, same]
  rw [kept]
  unfold isSettled at past
  cases there : w.status run with
  | running =>
    rw [there] at past
    cases past
  | resolved ms => exact absurd there (other ms)
  | rejected ms e => exact ⟨ms, e, rfl⟩

theorem Spoiled.move (spoiled : Spoiled plan w run h) (reached : Reachable plan w)
    (compiled : plan.tree.Compiled) (m : Move plan w w') : Spoiled plan w' run h := by
  have grown := m.grown reached.sound.steady
  have stays (past : w.isSettled run) : Spoiled plan w' run h := by
    obtain ⟨ms, e, rejected⟩ := m.rejected reached.sound.steady past fun ms => spoiled.unresolved reached compiled
    exact .rejected rejected
  cases spoiled with
  | rejected rejected => exact stays (by rw [isSettled, rejected]; rfl)
  | dropped called none =>
    have less : (following plan run h).total w' ≤ (following plan run h).total w :=
      total_le reached.sound rfl (reached.known called) m
    exact .dropped (grown.subset_notes called) (by omega)
  | @falling _ t e call body stack called own ordinary here =>
    cases m.turn reached.sound with
    | acted act _ =>
      by_cases past : w.isSettled run
      · exact stays past
      · rw [here] at act
        cases act with
        | replayed own => cases own
        | unfollowed losing =>
          obtain ⟨ms, rejected⟩ := losing.rejects ordinary (reached.known called) (by simpa using past)
          exact .rejected (w := World.focusOn _ _) rejected
    | halted busy => cases here.symm.trans busy
    | ended busy => cases here.symm.trans busy
    | resumed idle => cases here.symm.trans idle
    | begun r _ =>
      exact .falling (grown.subset_notes called) own ordinary ((newTask_sameRuns r).focus.trans here)
    | rested _ focus => exact .falling (grown.subset_notes called) own ordinary (focus.trans here)

/-- Whoever is at the branch of a node is waited for by the frame that follows the node. -/
theorem Reachable.follows {r : Result} (reached : Reachable plan w)
    (here : w.focus = .enter t (.follow run n r) stack) : Follows run n stack := by
  induction reached generalizing t stack r with
  | fresh fresh =>
    rw [fresh.focus] at here
    cases here
  | move before m ih =>
    obtain ⟨_, _, _, act, -⟩ | old | ⟨_, -, stood⟩ := m.entered before.sound here
    · exact act.follows rfl
    · exact ih old
    · -- no task begins with the branch of a node
      have begins := before.sound.tasks.begins _ _ _ stood
      cases begins

/-- A node that fails before it has completed is one that has been called. -/
theorem Loses.called {aim : FutureId → Aim} (loses : Loses run t stack h pre w.focus)
    (ordered : Ordered plan aim w) : ∃ args, (run, .called h args) ∈ pre ++ w.notes := by
  have focused := ordered.focus
  generalize w.focus = focus at loses focused
  cases loses with
  | sequential n args => exact ⟨args, List.mem_cons_self⟩
  | dispatch n args => exact ⟨args, List.mem_cons_self⟩
  | member call body =>
    obtain ⟨a, opens, -⟩ := focused
    cases opens with
    | played own => cases own
    | member tended _ => exact tended.dates.called
  | returning call o only =>
    obtain ⟨a, -, fits⟩ := focused
    have called : ∃ args, (run, .called call.node.head args) ∈ w.notes := by
      cases fits with
      | played own => cases own
      | inside dates => exact dates.called
      | outside dates => exact dates.called
    obtain ⟨args, called⟩ := called
    exact ⟨args, List.mem_append_right _ called⟩
  | completing call body o =>
    obtain ⟨a, -, fits⟩ := focused
    cases fits with
    | played own => cases own
    | completing tended => exact tended.dates.called

/-- A node that fails before it has completed owes that it is followed, and the failure drops that. -/
theorem Loses.owed (loses : Loses run t stack h pre next) :
    (following plan run h).ofStack stack + 1 ≤ (following plan run h).ofFocus next ∧
      (following plan run h).paid pre = 0 := by
  -- whatever is owed of a node includes the node itself
  have more (n : Node) : 1 ≤ (following plan run n.head).share run n.nodes := by
    rw [share_nodes, following_share]
    exact Nat.le_add_right _ _
  cases loses with
  | sequential n args =>
    have node := more n
    simp only [ofFocus, ofRoutine]
    exact ⟨by omega, by simp [paid, following, Stage.reached?]⟩
  | dispatch n args =>
    have node := more n
    simp only [ofFocus, ofRoutine, share_entry]
    exact ⟨by omega, by simp [paid, following, Stage.reached?]⟩
  | member call body =>
    have node := more call.node
    simp only [ofFocus, ofRoutine, following, Stage.reporting] at node ⊢
    exact ⟨by omega, paid_nil⟩
  | returning call o only =>
    have node := more call.node
    simp only [ofFocus, ofStack_cons, ofFrame, following, Stage.reporting] at node ⊢
    refine ⟨by omega, ?_⟩
    rcases only with rfl | rfl
    · exact paid_nil
    · exact paid_ended
  | completing call body o =>
    have node := more call.node
    simp only [ofFocus, ofStack_cons, ofFrame, following, Stage.reporting] at node ⊢
    exact ⟨by omega, paid_nil⟩

theorem Act.spoiled {tasks : List (FutureId × Routine)} (act : Act plan w w.focus notes tasks w' next)
    (reached : Reachable plan w) (compiled : plan.tree.Compiled) (failed : (run, .failed h e) ∈ notes) :
    Spoiled plan (w'.focusOn next) run h := by
  obtain ⟨aim, ordered⟩ := reached.ordered compiled
  have noted : (w'.focusOn next).notes = notes ++ w.notes := act.effect.noted
  cases act.fails failed with
  | @lost t stack pre loses lost =>
    obtain ⟨args, called⟩ := loses.called ordered
    have called' : (run, .called h args) ∈ (w'.focusOn next).notes := by
      rw [noted]
      rcases List.mem_append.mp called with now | before
      · exact List.mem_append_left _ (lost.subset now)
      · exact List.mem_append_right _ before
    refine .dropped called' ?_
    obtain ⟨focus, paid⟩ := lost_le (a := following plan run h) lost
    obtain ⟨owed, unpaid⟩ : (following plan run h).ofStack stack + 1 ≤ (following plan run h).ofFocus w.focus ∧
        (following plan run h).paid pre = 0 := loses.owed
    have waiting := waiting_effect (a := following plan run h) lost.effect
    have most := reached.following_le_one compiled run h
    simp only [List.map_nil, List.sum_nil] at waiting
    unfold total at most
    have same : (following plan run h).total (w'.focusOn next)
        = (following plan run h).ofFocus next + (following plan run h).waiting w'
          + (following plan run h).paid (notes ++ w.notes) := by
      rw [total, noted]
      rfl
    rw [same, paid_append]
    omega
  | @missed t n r stack own ordinary here only there =>
    obtain ⟨call, body, rest, node, rfl⟩ := reached.follows here
    obtain ⟨a, opens, fits⟩ := ordered.entered here
    cases opens with
    | played own => cases own
    | follow _ _ _ =>
      cases fits with
      | played own => cases own
      | following tended =>
        obtain ⟨args, called⟩ := tended.dates.called
        have called' : (run, .called h args) ∈ (w'.focusOn next).notes := by
          rw [noted, ← own]
          exact List.mem_append_right _ called
        exact .falling called' own (by simp [Fault.isOrdinary, ordinary]) there

theorem Reachable.spoiled (reached : Reachable plan w) (compiled : plan.tree.Compiled)
    (failed : (run, .failed h e) ∈ w.notes) : Spoiled plan w run h := by
  refine reached.forall_notes (P := fun w x => ∀ h e, x.2 = .failed h e → Spoiled plan w x.1 h)
    (fun before m _ earlier h e same => (earlier h e same).move before compiled m)
    (fun {w w' notes} before m noting x new h e same => ?_) _ failed _ _ rfl
  obtain ⟨run, x⟩ := x
  obtain rfl : x = _ := same
  cases noting with
  | acted act => exact act.spoiled before compiled new
  | quiet _ => cases new
  | @told run' node c explicit b _ w₁ w' _ next ends _ =>
    cases ends with
    | quiet _ _ => cases new
    | doomed _ _ _ => cases new
    | unheard _ _ => cases List.mem_singleton.mp new
    | @rejecting _ rejections e' _ only _ rejects =>
      obtain rfl : run = run' := by
        rcases List.mem_append.mp new with rejection | failure
        · obtain ⟨ms, x, same⟩ := only _ rejection
          cases same
        · exact (Prod.mk.inj (List.mem_singleton.mp failure)).1
      have waits : w.Awaits run b := ⟨node, c, explicit, mem_jobs_of_next next⟩
      by_cases past : w.isSettled run
      · obtain ⟨ms, x, rejected⟩ := m.rejected before.sound.steady past fun ms resolved =>
          before.unawaited compiled resolved waits
        exact .rejected rejected
      · obtain ⟨_, began⟩ := before.awaits waits
        obtain ⟨_, called⟩ := before.begun began
        have same := nextJob_sameRuns next
        have known : (w₁.record? run).isSome := by
          rw [record?_congr same.records]
          exact before.known called
        obtain ⟨ms, rejected⟩ := rejects known (by
          rw [isSettled_congr same.records]
          simpa using past)
        exact .rejected rejected

/-- A run that has resolved has lost no failure: no node has failed in it, and whatever node it has
called has run to its end, with a payload that can be merged and a result that selects a branch list
of that node or none. -/
theorem no_failure_is_lost {graph : Item} (compiled : Graph.compile graph = .ok plan.tree)
    (reached : Reachable plan w) (resolved : w.status run = .resolved ms) :
    (∀ h e, (run, .failed h e) ∉ w.notes) ∧ ∀ h args, (run, .called h args) ∈ w.notes →
      ∃ n ∈ plan.tree.nodes, n.head = h ∧ ∃ r, w.Ran run n r ∧ r.payload.isMergeable ∧
        (r.path = .atom .null ∨ ∃ declared inner, n.Selects r declared inner) := by
  have compiled' := Tree.compiled_of_compile compiled
  refine ⟨fun h e failed => ?_, fun h args called => ?_⟩
  · exact (reached.spoiled compiled' failed).unresolved reached compiled' resolved
  · obtain ⟨n, within, own, r, ran, routed⟩ := reached.resolved_ran compiled' resolved called
    obtain ⟨payload, completed⟩ := ran.completed
    refine ⟨n, within, own, r, ran, reached.mergeable completed, routed.imp_right ?_⟩
    exact fun ⟨declared, inner, selects, _⟩ => ⟨declared, inner, selects⟩

def isResolved (w : World) (run : RunId) : Bool := w.status run matches .resolved _

theorem exists_of_isResolved (resolved : isResolved w run) : ∃ ms, w.status run = .resolved ms := by
  unfold isResolved at resolved
  split at resolved
  · exact ⟨_, ‹_›⟩
  · cases resolved

/-- The node after the group has run when the run has resolved. -/
theorem resolved_run_has_run_next : ∃ w ms n r, Reachable rebinding w ∧ w.status 0 = .resolved ms ∧
    n.slot = 1 ∧ w.Ran 0 n r := by
  have reached := reachable_firstRun rebinding 60
  have settled : isResolved (firstRun rebinding 60) 0 := by decide +kernel
  obtain ⟨ms, resolved⟩ := exists_of_isResolved settled
  have calls : callsSlot (firstRun rebinding 60).notes 0 1 := by decide +kernel
  obtain ⟨h, args, slot, called⟩ := exists_of_callsSlot calls
  have compiled : Graph.compile (.list rebindingItems) = .ok rebinding.tree := rfl
  obtain ⟨-, all⟩ := no_failure_is_lost compiled reached resolved
  obtain ⟨n, -, own, r, ran, -⟩ := all h args called
  exact ⟨_, ms, n, r, reached, resolved, by rw [Node.slot, own, slot], ran⟩

/-- A run resolves although a body has failed whose descriptor kept that from the run. -/
theorem resolved_run_hides_failure : ∃ w ms h b e, Reachable rebinding w ∧ w.status 0 = .resolved ms ∧
    (0, .began h (some b)) ∈ w.notes ∧ w.settlement? b = some (.failed e) := by
  have resolved : isResolved (firstRun rebinding 60) 0 := by decide +kernel
  have fails : bodyFails (firstRun rebinding 60) 0 0 := by decide +kernel
  obtain ⟨ms, resolved⟩ := exists_of_isResolved resolved
  obtain ⟨h, b, e, -, began, failed⟩ := exists_of_bodyFails fails
  exact ⟨_, ms, h, b, e, reachable_firstRun rebinding 60, resolved, began, failed⟩

end Conductor.World
