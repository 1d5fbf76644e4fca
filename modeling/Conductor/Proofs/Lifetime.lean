import Conductor.Proofs.Waiting
import Conductor.Proofs.Args

/-!
# The life of a run

A run lives on from the move that begins it for as long as its loop is the running one and nobody from
outside touches its tasks or what these wait for on its behalf. Meanwhile its own steps, and whatever
else is done to the machine, may come in any order. Whatever the run waits for then belongs to its loop,
and each of its tasks that can go on stands in the queue.
-/

namespace Conductor.World

variable {w w' : World} {plan : Plan} {run : RunId} {f g t o : FutureId} {j : Job} {p : Position}
  {waiting : Option FutureId} {stack : List Frame} {s : Settlement}

/-! ### Loops of new futures -/

/-- Whether new futures belong to the running loop, which stays, and old ones to the loops they had. -/
structure Homes (w w' : World) : Prop where
  loop : w'.agenda.loop = w.agenda.loop
  loops : ∀ f n, w.loop? f = some n → w'.loop? f = some n
  made : ∀ f, w.futures.size ≤ f → f < w'.futures.size → w'.loop? f = some w.agenda.loop

theorem Homes.of_size (loop : w'.agenda.loop = w.agenda.loop)
    (loops : ∀ f n, w.loop? f = some n → w'.loop? f = some n) (size : w'.futures.size = w.futures.size) :
    Homes w w' :=
  ⟨loop, loops, fun _ new there => absurd (size ▸ there) (Nat.not_lt.mpr new)⟩

theorem Homes.trans {w₁ w₂ w₃ : World} (h : Homes w₁ w₂) (h' : Homes w₂ w₃) : Homes w₁ w₃ where
  loop := h'.loop.trans h.loop
  loops f n own := h'.loops f n (h.loops f n own)
  made f new there := by
    by_cases old : f < w₂.futures.size
    · exact h'.loops f _ (h.made f new old)
    · exact (h'.made f (Nat.le_of_not_lt old) there).trans (congrArg some h.loop)

theorem Homes.newFuture (purpose : Purpose) : Homes w (w.newFuture purpose).2 where
  loop := rfl
  loops := (Grown.newFuture purpose).loops
  made f new there := by
    rw [size_newFuture] at there
    obtain rfl : f = w.futures.size := Nat.le_antisymm (Nat.lt_succ_iff.mp there) new
    simp [loop?, future?, World.newFuture]

theorem Motion.homes (lanes : w.Lanes) (m : Motion w w') : Homes w w' := by
  have of_size {w w' : World} (lanes : w.Lanes) (m : Motion w w') (size : w'.futures.size = w.futures.size) :
      Homes w w' := .of_size (Keeps.motion lanes m).loop (Keeps.motion lanes m).loops size
  induction m with
  | still futures loop ready parked timers =>
    exact of_size lanes (.still futures loop ready parked timers) (by rw [futures])
  | posted loop free => exact of_size lanes (.posted loop free) (size_post loop)
  | scheduled ticks free => exact of_size lanes (.scheduled ticks free) rfl
  | made purpose => exact .newFuture purpose
  | settled f s => exact of_size lanes (.settled f s) size_settle
  | called own order => exact of_size lanes (.called own order) size_onSettled
  | repurposed f p => exact of_size lanes (.repurposed f p) (size_repurpose f p)
  | trans first _ ih ih' => exact (ih lanes).trans (ih' (lanes.motion first))

theorem nextJob_loop (next : w.nextJob? = some (j, w')) : w'.agenda.loop = w.agenda.loop := by
  obtain ⟨_, _, -, rfl⟩ := nextJob_cases next
  rfl

theorem step_loop (sound : w.Sound) (stepped : w.step plan = some w') : w'.agenda.loop = w.agenda.loop := by
  have moved {w w' : World} (lanes : w.Lanes) (motion : Motion w w') : w'.agenda.loop = w.agenda.loop :=
    (motion.homes lanes).loop
  cases step_stepped sound.steady stepped with
  | acted act => exact moved sound.lanes ((Motion.effect act.effect).trans (.focusOn _))
  | suspended busy pending => exact moved sound.lanes (.handover (.suspended busy pending))
  | yielded busy => exact moved sound.lanes (.handover (.yielded busy))
  | ended busy => exact moved sound.lanes (.handover (.ended busy))
  | @handled k w₁ idle next =>
    exact (moved (sound.lanes.nextJob next) (.handled (sound.steady.handled next))).trans (nextJob_loop next)
  | turned idle next =>
    obtain ⟨_, -, rfl⟩ := nextTurn_cases next
    rfl

theorem Move.made (sound : w.Sound) (m : Move plan w w') (new : w.futures.size ≤ f)
    (there : f < w'.futures.size) : w'.loop? f = some w.agenda.loop := by
  have moved {w w' : World} (lanes : w.Lanes) (motion : Motion w w') (new : w.futures.size ≤ f)
      (there : f < w'.futures.size) : w'.loop? f = some w.agenda.loop := (motion.homes lanes).made f new there
  have none {u : World} (size : u.futures.size = w.futures.size) (there : f < u.futures.size) :
      u.loop? f = some w.agenda.loop := absurd (size ▸ there) (Nat.not_lt.mpr new)
  cases m with
  | stepped stepped =>
    cases step_stepped sound.steady stepped with
    | acted act => exact moved sound.lanes ((Motion.effect act.effect).trans (.focusOn _)) new there
    | suspended busy pending => exact moved sound.lanes (.handover (.suspended busy pending)) new there
    | yielded busy => exact moved sound.lanes (.handover (.yielded busy)) new there
    | ended busy => exact moved sound.lanes (.handover (.ended busy)) new there
    | @handled k w₁ idle next =>
      rw [← nextJob_loop next]
      exact moved (sound.lanes.nextJob next) (.handled (sound.steady.handled next)) (nextJob_futures next ▸ new) there
    | turned idle next =>
      obtain ⟨_, -, rfl⟩ := nextTurn_cases next
      exact none rfl there
  | called r _ => exact moved sound.lanes (.newTask r) new there
  | observed f => exact none size_onSettled there
  | cancelled f => exact none (size_interrupted (cancel_interrupted f)) there
  | supplied _ | cleared | turned | opened _ _ _ _ | closed _ => exact none rfl there

/-! ### Runs and what they are left to -/

def Serves (w : World) (run : RunId) (t : FutureId) : Prop :=
  (∃ p waiting, w.Stands t p waiting ∧ p.Concerns run) ∨ w.focus.task? = some t ∧ w.focus.Concerns run

def WaitsFor (w : World) (run : RunId) (f : FutureId) : Prop :=
  ∃ t frame stack, frame.run? = some run ∧ w.Waiting t f (frame :: stack)

structure Lets (run : RunId) (w w' : World) : Prop where
  tasks : ∀ t, w.Serves run t → w'.purpose? t = w.purpose? t
  waits : ∀ f, w.WaitsFor run f → w'.purpose? f = w.purpose? f ∧ w'.settlement? f = w.settlement? f

/-- Whether a move is one in the life of a run: its loop stays the running one, and the machine steps
or the run is left alone. -/
structure Undisturbed (plan : Plan) (run : RunId) (w w' : World) : Prop where
  loop : w'.agenda.loop = w.agenda.loop
  lets : w.step plan = some w' ∨ Lets run w w'

abbrev Lives (plan : Plan) (run : RunId) : World → World → Prop :=
  Relation.ReflTransGen fun w w' => Move plan w w' ∧ Undisturbed plan run w w'

inductive Runs (plan : Plan) (run : RunId) : World → Prop where
  | begun {w w' : World} (before : Reachable plan w) (m : Move plan w w') (new : w.record? run = none)
      (known : (w'.record? run).isSome) : Runs plan run w'
  | move {w w' : World} (runs : Runs plan run w) (m : Move plan w w') (undisturbed : Undisturbed plan run w w') :
      Runs plan run w'

namespace Runs

theorem reachable (runs : Runs plan run w) : Reachable plan w := by
  induction runs with
  | begun before m _ _ => exact before.move m
  | move _ m _ ih => exact ih.move m

theorem step (runs : Runs plan run w) (stepped : w.step plan = some w') : Runs plan run w' :=
  runs.move (.stepped stepped) ⟨step_loop runs.reachable.sound stepped, .inl stepped⟩

theorem lives (runs : Runs plan run w) (lives : Lives plan run w w') : Runs plan run w' := by
  induction lives with
  | refl => exact runs
  | tail _ now ih => exact ih.move now.1 now.2

theorem grown (runs : Runs plan run w) (lives : Lives plan run w w') : Grown w w' := by
  induction lives with
  | refl => exact .refl w
  | tail before now ih => exact ih.trans (now.1.grown (runs.lives before).reachable.sound.steady)

theorem known (runs : Runs plan run w) : (w.record? run).isSome := by
  induction runs with
  | begun _ _ _ known => exact known
  | move runs m _ ih => exact (m.grown runs.reachable.sound.steady).recorded ih

end Runs

/-- What the move that begins a run makes: the outcome of the run, and its driver. -/
structure Launch (run : RunId) (w w' : World) : Prop where
  loop : w'.agenda.loop = w.agenda.loop
  outcome : w'.outcome? run = some w.futures.size
  size : w'.futures.size = w.futures.size + 2
  driver : w'.purpose? (w.futures.size + 1) = some (.task (.unstarted (.drive run)) none false)
  pending : w'.settlement? (w.futures.size + 1) = none
  running : w'.status run = .running
  noted : w'.notes = w.notes
  started : (w'.record? run).map (·.started) = some w.clock

theorem not_recorded (new : w.record? run = none) (known : (w'.record? run).isSome)
    (args : w'.records.map (·.args) = w.records.map (·.args)) : False := by
  rw [record?, Array.getElem?_eq_none_iff, ← records_size_congr args] at new
  rw [record?, Array.getElem?_eq_none new] at known
  cases known

theorem enterRunner_launch {args : Value} (new : w.record? run = none)
    (known : ((w.enterRunner args t stack).record? run).isSome) : Launch run w (w.enterRunner args t stack) := by
  cases given : w.heap.entriesOf args with
  | error f => exact (not_recorded new known (enterRunner_refused given).args).elim
  | ok entries =>
    have latest : run = w.records.size := by
      obtain ⟨-, -, records, -, -⟩ : Begun w entries (w.enterRunner args t stack) := enterRunner_begun given
      rw [record?, records, Option.isSome_iff_exists] at known
      obtain ⟨x, there⟩ := known
      have lt := (Array.getElem?_eq_some_iff.mp there).1
      rw [Array.size_push] at lt
      exact Nat.le_antisymm (Nat.lt_succ_iff.mp lt) (Array.getElem?_eq_none_iff.mp new)
    subst latest
    unfold World.enterRunner
    rw [given]
    constructor
    case loop =>
      simp [startRun, enter, World.newTask, newFuture, World.post, addRecord, World.log]
    case outcome =>
      simp [startRun, enter, World.newTask, newFuture, World.post, addRecord, World.log, outcome?, record?]
    case size =>
      simp [startRun, enter, World.newTask, newFuture, World.post, addRecord, World.log]
    case driver =>
      simp [startRun, enter, World.newTask, newFuture, World.post, addRecord, World.log, purpose?, future?,
        Array.getElem_push]
    case pending =>
      simp [startRun, enter, World.newTask, newFuture, World.post, addRecord, World.log, settlement?, future?,
        Array.getElem_push]
    case running =>
      simp [startRun, enter, World.newTask, newFuture, World.post, addRecord, World.log, status, record?]
    case noted =>
      simp [startRun, enter, World.newTask, newFuture, World.post, addRecord, World.log, notes]
    case started =>
      simp [startRun, enter, World.newTask, newFuture, World.post, addRecord, World.log, record?]

theorem Move.launch (m : Move plan w w') (new : w.record? run = none) (known : (w'.record? run).isSome) :
    Launch run w w' := by
  rcases m.aside with stepped | ⟨heap, rfl⟩ | rfl | aside
  · by_cases starts : w.focus.starts
    · unfold World.step at stepped
      split at stepped
      · rename_i t r stack here
        obtain rfl := Option.some.inj stepped
        rw [here] at starts
        cases r with
        | runner args =>
          have launch := enterRunner_launch (w := w.resetNodes) new known
          exact ⟨launch.loop, launch.outcome, launch.size, launch.driver, launch.pending, launch.running,
            launch.noted, launch.started⟩
        | execute args => exact enterRunner_launch new known
        | _ => cases starts
      all_goals
        rename_i here
        rw [here] at starts
        cases starts
    · exact (not_recorded new known (step_phases stepped (by simpa using starts)).args).elim
  · rw [show World.record? { w with heap } run = w.record? run from rfl, new] at known
    cases known
  · rw [show w.resetNodes.record? run = w.record? run from rfl, new] at known
    cases known
  · exact (not_recorded new known aside.args).elim

namespace Runs

/-- A run has a driver, which was made right after the outcome of the run. -/
theorem driver (runs : Runs plan run w) : ∃ o, w.outcome? run = some o ∧ w.kind? (o + 1) = some .task := by
  induction runs with
  | begun before m new known =>
    have launch := m.launch new known
    exact ⟨_, launch.outcome, kind?_of_purpose? launch.driver⟩
  | move runs m _ ih =>
    obtain ⟨o, outcome, driver⟩ := ih
    have grown := m.grown runs.reachable.sound.steady
    exact ⟨o, grown.outcomes run o outcome, grown.kinds _ _ driver⟩

theorem home (runs : Runs plan run w) (since : w.Since run f) : w.loop? f = some w.agenda.loop := by
  induction runs with
  | @begun v w before m new known =>
    have launch := m.launch new known
    obtain ⟨o, outcome, later, there⟩ := since
    obtain rfl := Option.some.inj (launch.outcome.symm.trans outcome)
    exact launch.loop ▸ m.made before.sound (Nat.le_of_lt later) there
  | @move v w runs m undisturbed ih =>
    have sound := runs.reachable.sound
    have grown := m.grown sound.steady
    by_cases old : f < v.futures.size
    · obtain ⟨o, outcome, later, -⟩ := since
      obtain ⟨o', outcome', -⟩ := runs.driver
      obtain rfl := Option.some.inj ((grown.outcomes run o' outcome').symm.trans outcome)
      exact undisturbed.loop ▸ grown.loops f _ (ih ⟨_, outcome', later, old⟩)
    · obtain ⟨-, -, -, there⟩ := since
      exact undisturbed.loop ▸ m.made sound (Nat.le_of_not_lt old) there

theorem thawed (runs : Runs plan run w) (since : w.Since run f) : ¬ w.Frozen f := by
  rintro ⟨n, own, -, other⟩
  exact other (Option.some.inj (own.symm.trans (runs.home since)))

end Runs

theorem Runs.work (runs : Runs plan run w) (fuel : Nat) : Runs plan run (work plan fuel [] w).2 := by
  induction fuel generalizing w with
  | zero => exact runs
  | succ fuel ih =>
    unfold World.work
    split
    · exact runs
    · rename_i stepped
      exact ih (runs.step stepped)

theorem runs_firstRun (plan : Plan) (n : Nat) : Runs plan 0 (firstRun plan (n + 3)) := by
  have begins : (firstRun plan 2).step plan = some (firstRun plan 3) := rfl
  have runs : Runs plan 0 (firstRun plan 3) := .begun (reachable_firstRun plan 2) (.stepped begins) rfl rfl
  exact runs.work n

/-! ### Tasks that can go on -/

def CanGoOn (w : World) (t : FutureId) : Prop :=
  ∃ p, w.Stands t p none ∧ p ≠ .active ∧ w.settlement? t = none

/-- A task that can go on stays in the queue of its loop until it does. -/
theorem Move.queued (sound : w.Sound) (m : Move plan w w') (same : w'.agenda.loop = w.agenda.loop)
    (ready : w.CanGoOn t → .resume t ∈ w.agenda.ready) (goes : w'.CanGoOn t) :
    .resume t ∈ w'.agenda.ready := by
  obtain ⟨p, stood, rest, pending⟩ := goes
  have before := (m.grown sound.steady).pending pending
  have kept (old : w.Stands t p none) : .resume t ∈ w'.agenda.ready := by
    have there := ready ⟨p, old, rest, before⟩
    rcases m.queue sound same with more | ⟨j, w₁, idle, next, rfl, front, more⟩
    · exact more.subset there
    · rw [front] at there
      rcases List.mem_cons.mp there with rfl | later
      · have active : (w₁.runJob plan (.resume t)).Stands t .active none :=
          runJob_activates sound next (by simp [Job.signals]) before
        exact absurd (stood.unique active).1 rest
      · exact more.subset later
  cases m.came sound stood with
  | stood there => exact kept there
  | made new _ => exact (m.provides sound).tasks t _ none new stood
  | halted _ _ _ queued =>
    obtain ⟨_, other, -⟩ | ⟨-, there⟩ := queued
    · cases other
    · exact there
  | active => exact absurd rfl rest

theorem Runs.queued (runs : Runs plan run w) (since : w.Since run t) (goes : w.CanGoOn t) :
    .resume t ∈ w.agenda.ready := by
  induction runs with
  | @begun v w before m new known =>
    have launch := m.launch new known
    obtain ⟨o, outcome, later, -⟩ := since
    obtain rfl := Option.some.inj (launch.outcome.symm.trans outcome)
    refine m.queued before.sound launch.loop (fun old => ?_) goes
    obtain ⟨_, there, -⟩ := old
    exact absurd there.lt (Nat.not_lt.mpr (Nat.le_of_lt later))
  | @move v w runs m undisturbed ih =>
    refine m.queued runs.reachable.sound undisturbed.loop (fun old => ih ?_ old) goes
    obtain ⟨o, outcome, later, -⟩ := since
    obtain ⟨o', outcome', -⟩ := runs.driver
    have grown := m.grown runs.reachable.sound.steady
    obtain rfl := Option.some.inj ((grown.outcomes run o' outcome').symm.trans outcome)
    obtain ⟨p, stood', -⟩ := old
    exact ⟨_, outcome', later, stood'.lt⟩

/-! ### Machines with nothing left to do -/

/-- A machine that cannot step is idle, with nothing in its queue and no timer. -/
theorem idle_of_step (done : w.step plan = none) :
    w.focus = .idle ∧ w.agenda.ready = [] ∧ w.agenda.timers = [] := by
  unfold World.step at done
  split at done
  case h_5 here =>
    split at done
    · cases done
    · unfold nextTurn? at done
      split at done
      · rename_i ready timers
        exact ⟨here, ready, timers⟩
      · cases done
      · cases done
  all_goals cases done

/-- What a job of the running loop still waits for when nothing is left to do is pending. -/
theorem Lanes.pending (lanes : w.Lanes) (done : w.step plan = none) (member : j ∈ w.jobs)
    (source : j.source? = some f) (home : w.loop? f = some w.agenda.loop) : w.settlement? f = none := by
  obtain ⟨-, ready, timers⟩ := idle_of_step done
  rcases mem_jobs member with there | parked | ⟨t, timed, -⟩ | ⟨g, js, own, called⟩
  · simp [ready] at there
  · have main := (lanes.parked.sources j parked f source).2
    have away := lanes.away (List.ne_nil_of_mem parked)
    exact absurd (Option.some.inj (home.symm.trans main)) away
  · simp [timers] at timed
  · obtain ⟨lane, pending⟩ := lanes.callbacks g js own
    obtain rfl := lane.sources j called f source
    exact pending (List.ne_nil_of_mem called)

namespace Runs

variable (runs : Runs plan run w) (done : w.step plan = none)
include runs done

/-- A task of a run that has not ended when nothing is left to do waits for something. -/
theorem suspended (since : w.Since run t) (task : w.kind? t = some .task) (pending : w.settlement? t = none) :
    ∃ stack f, w.Stands t (.suspended stack) (some f) := by
  have wakes := runs.reachable.wakes
  obtain ⟨focus, ready, -⟩ := idle_of_step done
  have stuck {p : Position} (stood : w.Stands t p none) (rest : p ≠ .active) : False := by
    have there := runs.queued since ⟨p, stood, rest, pending⟩
    simp [ready] at there
  obtain ⟨q, own, kind⟩ := Option.map_eq_some_iff.mp task
  cases q with
  | task p waiting m =>
    have stood : w.Stands t p waiting := ⟨m, own⟩
    cases p with
    | active =>
      have busy := wakes.active t waiting stood pending
      simp [focus, Focus.task?] at busy
    | unstarted r =>
      cases waiting with
      | none => exact (stuck stood (by simp)).elim
      | some f => cases wakes.unstarted t r _ stood
    | suspended stack =>
      cases waiting with
      | none => exact (stuck stood (by simp)).elim
      | some f => exact ⟨stack, f, stood⟩
  | _ => cases kind

/-- What a task of a run waits for on its behalf when nothing is left to do is pending. -/
theorem unsettled (stood : w.Stands t (.suspended stack) (some f)) (pending : w.settlement? t = none)
    (since : w.Since run f) : w.settlement? f = none := by
  rcases runs.reachable.wakes.waits t stack f stood pending with there | closed
  · exact runs.reachable.sound.lanes.pending done there rfl (runs.home since)
  · exact absurd closed (runs.thawed since)

end Runs

end Conductor.World
