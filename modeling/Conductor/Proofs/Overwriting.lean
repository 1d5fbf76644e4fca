import Conductor.Proofs.Phases
import Conductor.Proofs.Unread

/-!
# Writing over the nodes

A run writes to the nodes and never reads them. Whatever earlier runs have left there, and whatever others
write there while it goes on, a machine does the same; and once a run has cleared the nodes at its start, it
leaves the same on them.
-/

namespace Conductor.World

variable {plan : Plan} {w w' v v' : World} {run : RunId} {node : Node} {call : Call} {t : FutureId}
  {stack : List Frame} {body : Option FutureId} {e : Raised} {f : FutureId} {scope : Scope}

/-! ### A machine that shows nothing -/

/-- No nodes, and nothing from before in the log and the journal. -/
def blank : Display := ⟨#[], #[], [], id⟩

abbrev unseen (w : World) : World := w.showing blank

@[simp] theorem enter_unseen (r : Routine) : w.unseen.enter t r stack = (w.enter t r stack).unseen := rfl

@[simp] theorem leave_unseen (o : Outcome) : w.unseen.leave t o stack = (w.leave t o stack).unseen := rfl

@[simp] theorem leaveWith_behind (r : Outcome × World) :
    leaveWith (blank.behind r) t stack = (leaveWith r t stack).unseen := rfl

@[simp] theorem passFailure_unseen :
    w.unseen.passFailure plan run node t stack e = (w.passFailure plan run node t stack e).unseen := by
  simp only [passFailure, handleFailure_showing, leaveWith_behind]

@[simp] theorem failNode_unseen :
    w.unseen.failNode plan run node t stack e = (w.failNode plan run node t stack e).unseen := by
  simp only [failNode, note_showing, passFailure_unseen]

@[simp] theorem suspend_unseen : w.unseen.suspend t f stack = (w.suspend t f stack).unseen := by
  simp only [suspend, setPosition_showing, onSettled_showing]
  rfl

@[simp] theorem endTask_unseen (o : Outcome) : w.unseen.endTask t o = (w.endTask t o).unseen := by
  simp only [endTask, setPosition_showing, settle_showing]
  rfl

@[simp] theorem resumeTask_unseen (o : Outcome) : w.unseen.resumeTask t o = (w.resumeTask t o).unseen := by
  unfold resumeTask
  simp only [future?_showing, wakeUp_showing]
  split
  · generalize w.wakeUp t _ o = r
    obtain ⟨_ | _, _⟩ := r <;> rfl
  · rfl
  · rfl

@[simp] theorem enterScript_unseen (rest : Remainder) :
    w.unseen.enterScript scope rest t stack = (w.enterScript scope rest t stack).unseen := by
  simp only [enterScript, runRemainder_showing]
  obtain ⟨h, u⟩ := runRemainder scope rest w
  cases h with
  | failed x => simp only [behind_mk, leaving_showing, leaveWith_behind]
  | paused what own => cases what <;> rfl
  | _ => rfl

@[simp] theorem enterRunner_unseen (args : Value) :
    w.unseen.enterRunner args t stack = (w.enterRunner args t stack).unseen := by
  simp only [enterRunner, heap_showing, startRun_showing]
  cases w.heap.entriesOf args <;> rfl

@[simp] theorem unwindScript_unseen (rest : Remainder) :
    w.unseen.unwindScript scope rest t stack e = (w.unwindScript scope rest t stack e).unseen := by
  simp only [unwindScript]
  cases rest.attempts with
  | nil => rfl
  | cons _ _ =>
    dsimp only
    split <;> rfl

@[simp] theorem unwindFrame_unseen (frame : Frame) :
    w.unseen.unwindFrame plan t stack e frame = (w.unwindFrame plan t stack e frame).unseen := by
  cases frame with
  | drive run =>
    simp only [unwindFrame, reject_showing]
    split
    · rfl
    · obtain ⟨_ | _, _⟩ := w.reject plan run e <;> rfl
  | script scope rest => exact unwindScript_unseen rest
  | returning run call => exact failNode_unseen
  | completing run call body => exact failNode_unseen
  | following run call body => exact passFailure_unseen
  | ending run call body => exact passFailure_unseen
  | _ => rfl

theorem modifyNode_unseen (change : NodeState → NodeState) :
    w.unseen.modifyNode node change = (w.modifyNode node change).unseen := by
  simp [modifyNode, showing, blank]

theorem resetNodes_unseen : w.unseen.resetNodes = w.resetNodes.unseen := by
  simp [resetNodes, showing, blank]

theorem beginNode_unseen : w.unseen.beginNode plan run node = (w.beginNode plan run node).unseen := by
  simp only [beginNode, heap_showing, argsOf_showing, modifyNode_unseen, log_showing]
  split <;> rfl

theorem complete_unseen (r : Result) (started : Nat) :
    w.unseen.complete plan run node r started = (w.complete plan run node r started).map unseen := by
  simp only [complete, heap_showing, argsOf_showing, note_showing, elapsed_showing]
  cases w.heap.merge (w.argsOf run) r.payload with
  | error _ => rfl
  | ok heap =>
    have merged (u : World) : { u.unseen with heap } = { u with heap }.unseen := rfl
    simp only [merged, modifyNode_unseen, heap_showing, log_showing]
    cases plan.settings.traceNodes <;> rfl

theorem finishCall_unseen (x : Reported) :
    w.unseen.finishCall plan run call x body t stack = (w.finishCall plan run call x body t stack).unseen := by
  simp only [finishCall, completeReport, resultOf_showing, complete_unseen, raise_showing]
  cases w.resultOf "payload" x with
  | error _ => exact failNode_unseen
  | ok r =>
    simp only [bind, Except.bind, pure, Except.pure]
    cases w.complete plan run call.node r call.started with
    | error _ => exact failNode_unseen
    | ok u => rfl

theorem collectCall_unseen :
    w.unseen.collectCall plan run call t stack = (w.collectCall plan run call t stack).unseen := by
  simp only [collectCall, collectReport_showing]
  obtain ⟨_ | x, u⟩ := w.collectReport call.completion
  · simp only [behind_mk, raise_showing, behind_fst, behind_snd, failNode_unseen]
  · simp only [behind_mk, leave_unseen, finishCall_unseen]
    change (if u.isSettled run then _ else _) = unseen _
    split <;> rfl

theorem enterSequential_unseen :
    w.unseen.enterSequential plan run node t stack = (w.enterSequential plan run node t stack).unseen := by
  simp only [enterSequential, newCompletion_showing, behind_fst, behind_snd, clock_showing,
    beginNode_unseen, callAction_showing]
  generalize World.callAction _ _ _ _ _ _ = r
  obtain ⟨_ | returned, u⟩ := r
  · exact failNode_unseen
  · cases returned with
    | plain _ => exact collectCall_unseen
    | routine _ _ => rfl
    | future _ => rfl

theorem dispatchMember_unseen :
    w.unseen.dispatchMember plan run node = blank.behind (w.dispatchMember plan run node) := by
  simp only [dispatchMember, newCompletion_showing, behind_fst, behind_snd, clock_showing,
    beginNode_unseen, callAction_showing]
  generalize World.callAction _ _ _ _ _ _ = r
  obtain ⟨_ | returned, u⟩ := r
  · simp only [behind_mk, note_showing]
  · cases returned with
    | plain _ => simp only [behind_mk, chainPlain_showing, behind_fst, behind_snd]
    | routine _ _ => simp only [behind_mk, newTask_showing, behind_fst, behind_snd, chainMember_showing]
    | future _ => simp only [behind_mk, behind_fst, behind_snd, chainMember_showing]

theorem enterRoutine_unseen (r : Routine) :
    w.unseen.enterRoutine plan t stack r = (w.enterRoutine plan t stack r).unseen := by
  cases r with
  | script scope rest => exact enterScript_unseen rest
  | runner args =>
    simp only [enterRoutine, resetNodes_unseen, enterRunner_unseen]
  | execute args => exact enterRunner_unseen args
  | branches run place position entries =>
    cases entries with
    | nil => rfl
    | cons entry rest =>
      simp only [enterRoutine]
      change (if w.isSettled run then _ else _) = unseen _
      split
      · rfl
      · cases entry <;> rfl
  | sequential run node => exact enterSequential_unseen
  | dispatch run place position members chains =>
    cases members with
    | nil => simp only [enterRoutine, newJoint_showing, behind_fst, behind_snd, enter_unseen]
    | cons entry rest =>
      cases entry with
      | node head outputs =>
        simp only [enterRoutine, dispatchMember_unseen]
        obtain ⟨_ | _, u⟩ := w.dispatchMember plan run ⟨head, outputs⟩
        · simp only [behind_mk, failDispatch_showing, leaveWith_behind]
        · rfl
      | nested entries =>
        simp only [enterRoutine, note_showing, newTask_showing, behind_fst, behind_snd, enter_unseen]
  | member run call body =>
    simp only [enterRoutine, waitedFor_showing, raise_showing, behind_fst, behind_snd, failNode_unseen]
    cases w.waitedFor call.completion with
    | error _ => rfl
    | ok f => cases f <;> rfl
  | follow run node r =>
    simp only [enterRoutine, selected_showing]
    cases w.selected node r with
    | error _ => rfl
    | ok branch => cases branch <;> rfl
  | wait f =>
    simp only [enterRoutine, settlement?_showing, deliver_showing, leaveWith_behind, suspend_unseen]
    cases w.settlement? f <;> rfl
  | yield =>
    simp only [enterRoutine, setPosition_showing, post_showing, agenda_showing]
    rfl
  | sleep ticks => cases ticks <;> rfl
  | delayed _ _ => rfl
  | drive _ => rfl

theorem resumeFrame_unseen (y : Yield) (frame : Frame) :
    w.unseen.resumeFrame plan t stack y frame = (w.resumeFrame plan t stack y frame).unseen := by
  cases frame with
  | drive run =>
    simp only [resumeFrame, resolve_showing]
    obtain ⟨_ | _, _⟩ := w.resolve run <;> rfl
  | returning run call => exact collectCall_unseen (w := w.note run _)
  | completing run call body =>
    simp only [resumeFrame, log_showing, leave_unseen, finishCall_unseen]
    change (if w.isSettled run then _ else _) = unseen _
    split <;> rfl
  | following run call body =>
    cases body with
    | none => rfl
    | some b =>
      simp only [resumeFrame, note_showing, newFuture_showing, behind_fst, behind_snd, onSettled_showing,
        enter_unseen]
  | _ => rfl

theorem runJob_unseen (j : Job) : w.unseen.runJob plan j = (w.runJob plan j).unseen := by
  cases j with
  | resume task => exact resumeTask_unseen _
  | wake task future =>
    simp only [runJob, settlement?_showing, deliver_showing, behind_fst, behind_snd, resumeTask_unseen]
    cases w.settlement? future <;> rfl
  | bodyEnded run node completion explicit body => exact bodyEnded_showing explicit
  | childEnded joint child => exact childEnded_showing joint child
  | release waiter future => exact settle_showing _
  | callback scope steps =>
    simp only [runJob, runSteps_showing]
    obtain ⟨h, u⟩ := runSteps scope steps w
    cases h <;> rfl
  | settle future how =>
    simp only [runJob, reachTime_showing]
    cases w.reachTime future how <;> rfl
  | stop => rfl

theorem step_unseen : w.unseen.step plan = (w.step plan).map unseen := by
  have kept : w.unseen.focus = w.focus := rfl
  unfold step
  rw [kept]
  cases w.focus with
  | enter t r stack => exact congrArg some (enterRoutine_unseen r)
  | leave t o stack =>
    cases stack with
    | nil => exact congrArg some (endTask_unseen o)
    | cons frame stack =>
      cases o with
      | ok y => exact congrArg some (resumeFrame_unseen y frame)
      | error e => exact congrArg some (unwindFrame_unseen frame)
  | idle =>
    simp only [nextJob?_showing]
    cases w.nextJob? with
    | some next => exact congrArg some (runJob_unseen next.1)
    | none => exact nextTurn?_showing

/-! ### States that differ on their nodes -/

structure Alike (w v : World) : Prop where
  elsewhere : v = { w with nodes := v.nodes }
  size : v.nodes.size = w.nodes.size

theorem unseen_eq_iff : w.unseen = v.unseen ↔ v = { w with nodes := v.nodes } := by
  have logged (w : World) : w.unseen = { w with nodes := #[] } := by simp [showing, blank]
  rw [logged, logged]
  constructor
  · intro same
    exact (congrArg (fun u : World => { u with nodes := v.nodes }) same).symm
  · intro same
    rw [same]

theorem Alike.unseen_eq (alike : Alike w v) : w.unseen = v.unseen := unseen_eq_iff.mpr alike.elsewhere

theorem size_step (stepped : w.step plan = some w') : w'.nodes.size = w.nodes.size := by
  by_cases starts : w.focus.starts
  · obtain ⟨args, u, cleared, began⟩ := step_starts stepped starts
    have kept : u.nodes.size = w.nodes.size := by
      rcases cleared with rfl | rfl
      · rfl
      · exact Array.size_map
    obtain ⟨f, -, aside⟩ | ⟨entries, -, ⟨-, -, -, nodes, -⟩⟩ := began
    · rw [aside.nodes, kept]
    · rw [nodes, kept]
  · exact (step_phases stepped (by simpa using starts)).size

/-! ### What is done -/

/-- What a machine does, what is done to it by those who use it, and what others do to its nodes. -/
inductive Doing where
  | step
  | supply (heap : Heap)
  | call (r : Routine)
  | observe (f : FutureId)
  | clear
  | cancel (f : FutureId)
  | turn
  | openLoop (n : Nat)
  | closeLoop
  /-- Others write anything to any nodes. -/
  | overwrite (change : Nat → NodeState → NodeState)

def Doing.isProper : Doing → Bool
  | .overwrite _ => false
  | _ => true

/-- The state that a doing leads to; `none` for a step of a machine that has nothing left to do. -/
def does (plan : Plan) (w : World) : Doing → Option World
  | .step => w.step plan
  | .supply heap => some { w with heap }
  | .call r => some (w.newTask r).2
  | .observe f => some (w.onSettled f .stop)
  | .clear => some w.resetNodes
  | .cancel f => some (w.cancel f)
  | .turn => some w.beginTurn
  | .openLoop n => some (w.openLoop n)
  | .closeLoop => some w.dropLoop
  | .overwrite change => some { w with nodes := w.nodes.mapIdx change }

def doesAll (plan : Plan) : List Doing → World → Option World
  | [], w => some w
  | x :: rest, w => (w.does plan x).bind (doesAll plan rest)

/-- Every move is a doing. -/
theorem Move.does (m : Move plan w w') : ∃ x : Doing, x.isProper ∧ w.does plan x = some w' := by
  cases m with
  | stepped h => exact ⟨.step, rfl, h⟩
  | supplied heap => exact ⟨.supply heap, rfl, rfl⟩
  | called r _ => exact ⟨.call r, rfl, rfl⟩
  | observed f => exact ⟨.observe f, rfl, rfl⟩
  | cleared => exact ⟨.clear, rfl, rfl⟩
  | cancelled f => exact ⟨.cancel f, rfl, rfl⟩
  | turned => exact ⟨.turn, rfl, rfl⟩
  | opened n _ _ _ => exact ⟨.openLoop n, rfl, rfl⟩
  | closed _ => exact ⟨.closeLoop, rfl, rfl⟩

theorem does_unseen (x : Doing) (proper : x.isProper) : w.unseen.does plan x = (w.does plan x).map unseen := by
  cases x with
  | step => exact step_unseen
  | supply heap => rfl
  | call r => exact congrArg (fun r => some r.2) (newTask_showing r)
  | observe f => exact congrArg some (onSettled_showing _)
  | clear => exact congrArg some resetNodes_unseen
  | cancel f => exact congrArg some cancel_showing
  | turn => rfl
  | openLoop n => rfl
  | closeLoop => rfl
  | overwrite _ => cases proper

theorem size_does {x : Doing} (done : w.does plan x = some w') : w'.nodes.size = w.nodes.size := by
  cases x with
  | step => exact size_step done
  | supply heap => cases done; rfl
  | call r => cases done; exact congrArg Array.size (Aside.newTask r).nodes
  | observe f => cases done; exact congrArg Array.size (Aside.onSettled f .stop).nodes
  | clear => cases done; exact Array.size_map
  | cancel f => cases done; exact congrArg Array.size (Aside.interrupted (cancel_interrupted f)).nodes
  | turn => cases done; rfl
  | openLoop n => cases done; rfl
  | closeLoop => cases done; rfl
  | overwrite change => cases done; exact Array.size_mapIdx

theorem unseen_overwrite (change : Nat → NodeState → NodeState) :
    unseen { w with nodes := w.nodes.mapIdx change } = w.unseen := rfl

/-- A machine that shows no nodes does the same, and does not know of others that write there. -/
theorem doesAll_unseen (doings : List Doing) (w : World) :
    (doesAll plan doings w).map unseen = doesAll plan (doings.filter Doing.isProper) w.unseen := by
  induction doings generalizing w with
  | nil => rfl
  | cons x rest ih =>
    by_cases proper : x.isProper
    · rw [List.filter_cons_of_pos proper, doesAll, doesAll, does_unseen x proper]
      cases w.does plan x with
      | none => rfl
      | some w' => exact ih w'
    · rw [List.filter_cons_of_neg proper, doesAll]
      cases x with
      | overwrite change => exact (ih _).trans (congrArg _ (unseen_overwrite change))
      | _ => exact absurd rfl proper

theorem size_doesAll {doings : List Doing} (done : doesAll plan doings w = some w') :
    w'.nodes.size = w.nodes.size := by
  induction doings generalizing w with
  | nil => cases done; rfl
  | cons x rest ih =>
    obtain ⟨u, first, then_⟩ := Option.bind_eq_some_iff.mp done
    exact (ih then_).trans (size_does first)

theorem doesAll_append (doings after : List Doing) (w : World) :
    doesAll plan (doings ++ after) w = (doesAll plan doings w).bind (doesAll plan after) := by
  induction doings generalizing w with
  | nil => rfl
  | cons x rest ih =>
    rw [List.cons_append, doesAll, doesAll]
    cases w.does plan x with
    | none => rfl
    | some w' => exact ih w'

/-- What is done to alike states leads to alike states, whatever is written over the nodes meanwhile. -/
theorem Alike.doesAll (plan : Plan) (alike : Alike w v) {doings doings' : List Doing}
    (same : doings.filter Doing.isProper = doings'.filter Doing.isProper) :
    Option.Rel Alike (doesAll plan doings w) (doesAll plan doings' v) := by
  have unseen : (World.doesAll plan doings w).map unseen = (World.doesAll plan doings' v).map unseen := by
    rw [doesAll_unseen, doesAll_unseen, same, alike.unseen_eq]
  cases done : World.doesAll plan doings w with
  | none =>
    rw [done] at unseen
    rw [Option.map_eq_none_iff.mp unseen.symm]
    exact .none
  | some w' =>
    rw [done] at unseen
    obtain ⟨v', done', same⟩ := Option.map_eq_some_iff.mp unseen.symm
    rw [done']
    exact .some ⟨unseen_eq_iff.mp same.symm, (size_doesAll done').trans (alike.size.trans (size_doesAll done).symm)⟩

theorem Alike.resetNodes (alike : Alike w v) : w.resetNodes = v.resetNodes := by
  have cleared : v.nodes.map (fun _ => ({} : NodeState)) = w.nodes.map fun _ => {} :=
    Array.ext (by simp [alike.size]) fun i _ _ => by simp
  rw [alike.elsewhere]
  simp only [World.resetNodes, cleared]

/-- A machine does the same whatever is on the nodes: left there by earlier runs, or written over them at any
moment by others. States that were alike stay so, with the same journal, so that the same actions are
called with the same args and the same payloads are merged, and with the same log, args, statuses and errors.
Once the next run has cleared the nodes at its start, the states are the same, and so they stay. -/
theorem runs_do_not_read_nodes (plan : Plan) (alike : Alike w v) {doings doings' : List Doing}
    (same : doings.filter Doing.isProper = doings'.filter Doing.isProper) :
    Option.Rel Alike (doesAll plan doings w) (doesAll plan doings' v) ∧
    ∀ u t given stack, doesAll plan doings w = some u → u.focus = .enter t (.runner given) stack →
      ∀ after, doesAll plan (doings ++ .step :: after) w = doesAll plan (doings' ++ .step :: after) v := by
  have led := alike.doesAll plan same
  refine ⟨led, fun u t given stack done starting after => ?_⟩
  rw [doesAll_append, doesAll_append]
  rw [done] at led ⊢
  generalize doesAll plan doings' v = other at led ⊢
  cases led with | some alike' =>
  rename_i u'
  have starting' : u'.focus = .enter t (.runner given) stack := by
    rw [alike'.elsewhere]
    exact starting
  have first : u.step plan = u'.step plan := by
    rw [step, step, starting, starting']
    exact congrArg (fun x : World => some (x.enterRunner given t stack)) alike'.resetNodes
  exact congrArg (fun x : Option World => x.bind (doesAll plan after)) first

/-- A sequence of a node that completes by itself and a group of one member that waits. -/
def rerunItems : List Item :=
  let signature : List Parameter := [⟨"args", .standard, false⟩, ⟨"store", .standard, false⟩]
  [.leaf (.object 0 0) (.function { label := "a", signature, steps := [.set (.text "k") (.text "v")] } {}),
   .list [.leaf (.object 1 0) (.function { label := "b", isAsync := true, signature, steps := [.sleep 1] } {})]]

def rerun : Plan where
  tree := Graph.compileItems rerunItems

def isStarting (w : World) : Bool :=
  match w.focus with
  | .enter _ (.runner _) _ => true
  | _ => false

/-- A second run calls and leaves the same on nodes that are as the first has left them as on others, even if
these are written over until it starts. -/
theorem second_run_starts_anew :
    let w := firstRun rerun 58
    let v : World := { w with nodes := w.nodes.map fun _ => { executing := true, duration := 7 } }
    let doings : List Doing := [.call (.runner (.atom .null)), .step, .step]
    let doings' : List Doing := [.overwrite fun i s => { s with executed := true, duration := i },
      .call (.runner (.atom .null)), .step, .overwrite fun _ s => { s with args := [] }, .step]
    ∃ u, doesAll rerun (doings' ++ .step :: List.replicate 55 .step) v = some u ∧
      doesAll rerun (doings ++ .step :: List.replicate 55 .step) w = some u ∧
        u.isSettled 1 ∧ (u.status 1).error?.isNone := by
  intro w v doings doings'
  have alike : Alike w v := ⟨rfl, Array.size_map⟩
  have result : (doesAll rerun (doings ++ .step :: List.replicate 55 .step) w).any
      fun u => u.isSettled 1 && (u.status 1).error?.isNone := by decide +kernel
  obtain ⟨u, done, all⟩ := (Option.any_eq_true _ _).mp result
  obtain ⟨settled, fine⟩ := Bool.and_eq_true_iff.mp all
  have starting : (doesAll rerun doings w).any isStarting := by decide +kernel
  obtain ⟨x, here, starts⟩ := (Option.any_eq_true _ _).mp starting
  unfold isStarting at starts
  split at starts
  · rename_i t given stack focus
    have proper : doings.filter Doing.isProper = doings'.filter Doing.isProper := rfl
    have same := (runs_do_not_read_nodes rerun alike proper).2 x t given stack here focus (List.replicate 55 .step)
    exact ⟨u, same.symm.trans done, done, settled, fine⟩
  · cases starts

end Conductor.World
