import Conductor.Machine.Step
import Mathlib.Data.List.Perm.Subperm
import Mathlib.Data.List.TakeDrop

/-!
# Futures and waiting jobs

What the operations of a loop do to its futures, and to the jobs that wait in its lanes: the queue,
the jobs kept for the main loop, the timers, and the callbacks of futures. An operation never makes
up a job: those waiting afterwards are among the ones waiting before and the one it adds.
-/

namespace Conductor

/-- The future whose end lets a job join the queue, if it waits for one. -/
def Job.source? : Job → Option FutureId
  | .wake _ f | .bodyEnded _ _ _ _ f | .childEnded _ f | .release _ f => some f
  | _ => none

/-- A settlement that a future can take: the end of an iteration is no failure of one, and what ends
as cancelled does so by a cancellation. -/
def Settlement.Proper : Settlement → Prop
  | .value _ => True
  | .failed e => e.fault.nature ≠ .stopIteration
  | .cancelled cause => ∀ e, cause = some e → e.fault.nature = .cancelled

def Future.settledAs (s : Settlement) (x : Future) : Future :=
  if x.settled.isSome then x else { x with settled := some s, callbacks := [] }

def Future.calling (j : Job) (x : Future) : Future :=
  if x.settled.isSome then x else { x with callbacks := x.callbacks ++ [j] }

def Completion.future? (c : Completion) : Option FutureId :=
  match c.recorded with
  | .first f => some f
  | _ => none

theorem flatMap_modify_perm {l : List Future} {i : Nat} {x : Future} (found : l[i]? = some x)
    (change : Future → Future) :
    (x.callbacks ++ (l.modify i change).flatMap (·.callbacks)).Perm
      ((change x).callbacks ++ l.flatMap (·.callbacks)) := by
  induction l generalizing i with
  | nil => simp at found
  | cons y rest ih =>
    cases i with
    | zero =>
      obtain rfl : y = x := by simpa using found
      simp only [List.modify_zero_cons, List.flatMap_cons]
      exact List.perm_append_comm_assoc _ _ _
    | succ i =>
      have moved := ih (i := i) (by simpa using found)
      simp only [List.modify_succ_cons, List.flatMap_cons]
      refine (List.perm_append_comm_assoc _ _ _).trans ?_
      exact (moved.append_left _).trans (List.perm_append_comm_assoc _ _ _)

namespace World

def jobs (w : World) : List Job :=
  w.agenda.ready ++ w.agenda.parked ++ w.agenda.timers.map (·.job)
    ++ w.futures.toList.flatMap (·.callbacks)

/-- What stays when only futures, lanes, values and logs change. -/
structure SameRuns (w w' : World) : Prop where
  focus : w'.focus = w.focus
  records : w'.records = w.records
  lastRun : w'.lastRun = w.lastRun
  journal : w'.journal = w.journal
  nodes : w'.nodes = w.nodes
  loop : w'.agenda.loop = w.agenda.loop
  firsts : w'.completions.map Completion.future? = w.completions.map Completion.future?
  clock : w'.clock = w.clock

namespace SameRuns

theorem refl (w : World) : SameRuns w w := ⟨rfl, rfl, rfl, rfl, rfl, rfl, rfl, rfl⟩

theorem trans {w₁ w₂ w₃ : World} (h : SameRuns w₁ w₂) (h' : SameRuns w₂ w₃) : SameRuns w₁ w₃ :=
  ⟨h'.focus.trans h.focus, h'.records.trans h.records, h'.lastRun.trans h.lastRun,
    h'.journal.trans h.journal, h'.nodes.trans h.nodes, h'.loop.trans h.loop,
    h'.firsts.trans h.firsts, h'.clock.trans h.clock⟩

end SameRuns

variable {w : World} {f g : FutureId} {j : Job} {s : Settlement}

/-! ### Futures one by one -/

@[simp] theorem future?_post (loop : Nat) : (w.post loop j).future? g = w.future? g := by
  unfold post
  split
  · rfl
  · split <;> rfl

@[simp] theorem future?_postAll (loop : Nat) (js : List Job) :
    (w.postAll loop js).future? g = w.future? g := by
  induction js generalizing w with
  | nil => rfl
  | cons j js ih => exact (ih (w := w.post loop j)).trans (future?_post loop)

theorem future?_modifyFuture (change : Future → Future) :
    (w.modifyFuture f change).future? g =
      if g = f then (w.future? g).map change else w.future? g := by
  simp only [future?, modifyFuture, Array.getElem?_modify]
  split
  · simp_all
  · rename_i different
    rw [if_neg (fun same => different same.symm)]

theorem future?_newFuture (purpose : Purpose) :
    (w.newFuture purpose).2.future? g =
      if g = w.futures.size then some { loop := w.agenda.loop, purpose } else w.future? g := by
  simp only [future?, newFuture, Array.getElem?_push]

theorem future?_settle :
    (w.settle f s).future? g =
      if g = f then (w.future? g).map (Future.settledAs s) else w.future? g := by
  unfold settle
  split
  · rename_i x found
    split
    · rename_i settled
      split
      · rename_i same
        simp [same, found, Future.settledAs, settled]
      · rfl
    · rename_i pending
      simp only [future?_postAll, future?_modifyFuture]
      split
      · rename_i same
        simp [same, found, Future.settledAs, pending]
      · rfl
  · rename_i missing
    split
    · rename_i same
      simp [same, missing]
    · rfl

theorem future?_onSettled :
    (w.onSettled f j).future? g =
      if g = f then (w.future? g).map (Future.calling j) else w.future? g := by
  unfold onSettled
  split
  · rename_i x found
    split
    · rename_i settled
      rw [future?_post]
      split
      · rename_i same
        simp [same, found, Future.calling, settled]
      · rfl
    · rename_i pending
      rw [future?_modifyFuture]
      split
      · rename_i same
        simp [same, found, Future.calling, pending]
      · rfl
  · rename_i missing
    split
    · rename_i same
      simp [same, missing]
    · rfl

/-- A part of futures that a change does not touch is read as before. -/
theorem map_changed {α : Type} (part : Future → α) {change : Future → Future}
    (same : ∀ x, part (change x) = part x) (o : Option Future) :
    (if g = f then o.map change else o).map part = o.map part := by
  split
  · rw [Option.map_map]
    exact congrArg (Option.map · o) (funext same)
  · rfl

theorem future?_lt (found : w.future? f = some x) : f < w.futures.size := by
  obtain ⟨bound, _⟩ := Array.getElem?_eq_some_iff.mp found
  exact bound

theorem future?_isSome (bound : f < w.futures.size) : ∃ x, w.future? f = some x :=
  ⟨w.futures[f], Array.getElem?_eq_getElem bound⟩

/-! ### Sizes and purposes -/

theorem settledAs_purpose (x : Future) : (x.settledAs s).purpose = x.purpose := by
  unfold Future.settledAs
  split <;> rfl

theorem settledAs_loop (x : Future) : (x.settledAs s).loop = x.loop := by
  unfold Future.settledAs
  split <;> rfl

theorem calling_purpose (x : Future) : (x.calling j).purpose = x.purpose := by
  unfold Future.calling
  split <;> rfl

theorem calling_loop (x : Future) : (x.calling j).loop = x.loop := by
  unfold Future.calling
  split <;> rfl

theorem calling_settled (x : Future) : (x.calling j).settled = x.settled := by
  unfold Future.calling
  split <;> rfl

theorem purpose?_settle : (w.settle f s).purpose? g = w.purpose? g := by
  rw [purpose?, future?_settle, map_changed Future.purpose settledAs_purpose, ← purpose?]

theorem purpose?_onSettled : (w.onSettled f j).purpose? g = w.purpose? g := by
  rw [purpose?, future?_onSettled, map_changed Future.purpose calling_purpose, ← purpose?]

theorem purpose?_post (loop : Nat) : (w.post loop j).purpose? g = w.purpose? g := by
  unfold purpose?
  rw [future?_post]

theorem purpose?_newFuture (purpose : Purpose) :
    (w.newFuture purpose).2.purpose? g =
      if g = w.futures.size then some purpose else w.purpose? g := by
  unfold purpose?
  rw [future?_newFuture]
  split <;> rfl

theorem purpose?_repurpose (p : Purpose) :
    (w.repurpose f p).purpose? g =
      if g = f then (w.purpose? g).map fun _ => p else w.purpose? g := by
  unfold purpose? repurpose
  rw [future?_modifyFuture]
  split
  · rw [Option.map_map, Option.map_map]
    rfl
  · rfl

theorem purpose?_lt {p : Purpose} (own : w.purpose? f = some p) : f < w.futures.size := by
  obtain ⟨x, found, -⟩ := Option.map_eq_some_iff.mp own
  exact future?_lt found

theorem purpose?_isSome (bound : f < w.futures.size) : ∃ p, w.purpose? f = some p := by
  obtain ⟨x, found⟩ := future?_isSome bound
  exact ⟨x.purpose, by rw [purpose?, found]; rfl⟩

theorem purpose?_newTask (r : Routine) :
    (w.newTask r).2.purpose? g =
      if g = w.futures.size then some (.task (.unstarted r) none false) else w.purpose? g := by
  unfold newTask
  rw [purpose?_post, purpose?_newFuture]

@[simp] theorem size_post (loop : Nat) : (w.post loop j).futures.size = w.futures.size := by
  unfold post
  split
  · rfl
  · split <;> rfl

@[simp] theorem size_postAll (loop : Nat) (js : List Job) :
    (w.postAll loop js).futures.size = w.futures.size := by
  induction js generalizing w with
  | nil => rfl
  | cons j js ih => exact (ih (w := w.post loop j)).trans (size_post loop)

theorem size_newFuture (purpose : Purpose) :
    (w.newFuture purpose).2.futures.size = w.futures.size + 1 := by
  simp [newFuture]

theorem size_newTask (r : Routine) : (w.newTask r).2.futures.size = w.futures.size + 1 :=
  (size_post _).trans (size_newFuture _)

theorem size_settle : (w.settle f s).futures.size = w.futures.size := by
  unfold settle
  split
  · split
    · rfl
    · simp [modifyFuture]
  · rfl

theorem size_onSettled : (w.onSettled f j).futures.size = w.futures.size := by
  unfold onSettled
  split
  · split
    · simp
    · simp [modifyFuture]
  · rfl

/-! ### What the operations of a loop leave alone -/

theorem post_sameRuns (loop : Nat) : SameRuns w (w.post loop j) := by
  unfold post
  split
  · exact ⟨rfl, rfl, rfl, rfl, rfl, rfl, rfl, rfl⟩
  · split <;> exact ⟨rfl, rfl, rfl, rfl, rfl, rfl, rfl, rfl⟩

theorem postAll_sameRuns (loop : Nat) (js : List Job) : SameRuns w (w.postAll loop js) := by
  induction js generalizing w with
  | nil => exact .refl w
  | cons j js ih => exact (post_sameRuns loop).trans ih

theorem schedule_sameRuns (ticks : Nat) : SameRuns w (w.schedule ticks j) :=
  ⟨rfl, rfl, rfl, rfl, rfl, rfl, rfl, rfl⟩

theorem modifyFuture_sameRuns (change : Future → Future) : SameRuns w (w.modifyFuture f change) :=
  ⟨rfl, rfl, rfl, rfl, rfl, rfl, rfl, rfl⟩

theorem newFuture_sameRuns (purpose : Purpose) : SameRuns w (w.newFuture purpose).2 :=
  ⟨rfl, rfl, rfl, rfl, rfl, rfl, rfl, rfl⟩

theorem settle_sameRuns : SameRuns w (w.settle f s) := by
  unfold settle
  split
  · split
    · exact .refl w
    · exact (modifyFuture_sameRuns _).trans (postAll_sameRuns _ _)
  · exact .refl w

theorem onSettled_sameRuns : SameRuns w (w.onSettled f j) := by
  unfold onSettled
  split
  · split
    · exact post_sameRuns _
    · exact modifyFuture_sameRuns _
  · exact .refl w

theorem newTask_sameRuns (r : Routine) : SameRuns w (w.newTask r).2 :=
  (newFuture_sameRuns _).trans (post_sameRuns _)

theorem newJoint_sameRuns (chains : List FutureId) : SameRuns w (w.newJoint chains).2 := by
  have registered (l : List FutureId) (w : World) (g : FutureId) :
      SameRuns w (l.foldl (fun w child => w.onSettled child (.childEnded g child)) w) := by
    induction l generalizing w with
    | nil => exact .refl w
    | cons c rest ih => exact onSettled_sameRuns.trans (ih _)
  unfold newJoint
  dsimp only
  split
  · exact (newFuture_sameRuns _).trans settle_sameRuns
  · exact (newFuture_sameRuns _).trans (registered chains _ _)

theorem repurpose_sameRuns (p : Purpose) : SameRuns w (w.repurpose f p) := modifyFuture_sameRuns _

theorem setPosition_sameRuns (p : Position) (waiting : Option FutureId) :
    SameRuns w (w.setPosition f p waiting) := by
  unfold setPosition
  split
  · exact repurpose_sameRuns _
  · exact .refl w

/-! ### Jobs -/

theorem jobs_congr {w' : World} (futures : w'.futures = w.futures) (agenda : w'.agenda = w.agenda) :
    w'.jobs = w.jobs := by
  rw [jobs, jobs, futures, agenda]

theorem jobs_post (loop : Nat) : (w.post loop j).jobs.Subperm (j :: w.jobs) := by
  unfold post
  split
  · refine List.Perm.subperm ?_
    simp only [jobs, List.append_assoc, List.singleton_append]
    exact List.perm_middle
  · split
    · refine List.Perm.subperm ?_
      simp only [jobs, List.append_assoc, List.singleton_append]
      exact (List.perm_middle.append_left _).trans List.perm_middle
    · exact List.Subperm.cons_self

theorem jobs_postAll (loop : Nat) (js : List Job) :
    (w.postAll loop js).jobs.Subperm (js ++ w.jobs) := by
  induction js generalizing w with
  | nil => exact .refl _
  | cons j js ih =>
    have later := ih (w := w.post loop j)
    have now := (List.subperm_append_left js).mpr (jobs_post (w := w) (j := j) loop)
    exact (later.trans now).trans List.perm_middle.subperm

theorem jobs_modifyFuture {x : Future} (found : w.future? f = some x) (change : Future → Future) :
    (x.callbacks ++ (w.modifyFuture f change).jobs).Perm ((change x).callbacks ++ w.jobs) := by
  have inside := flatMap_modify_perm (l := w.futures.toList) (i := f) (x := x)
    (by simpa [future?] using found) change
  have outside (own : List Job) (rest : List Job) :
      (own ++ (w.agenda.ready ++ w.agenda.parked ++ w.agenda.timers.map (·.job) ++ rest)).Perm
        ((w.agenda.ready ++ w.agenda.parked ++ w.agenda.timers.map (·.job)) ++ (own ++ rest)) :=
    List.perm_append_comm_assoc _ _ _
  simp only [jobs, modifyFuture, Array.toList_modify]
  exact (outside _ _).trans ((inside.append_left _).trans (outside _ _).symm)

theorem jobs_modifyFuture_same {change : Future → Future}
    (same : ∀ x, (change x).callbacks = x.callbacks) :
    (w.modifyFuture f change).jobs.Subperm w.jobs := by
  cases found : w.future? f with
  | none =>
    have untouched : w.futures.modify f change = w.futures := by
      apply Array.ext_getElem?
      intro i
      rw [Array.getElem?_modify]
      split
      · rename_i eq
        rw [← eq, show w.futures[f]? = none from found]
        rfl
      · rfl
    simp only [jobs, modifyFuture, untouched]
    exact .refl _
  | some x =>
    have moved := jobs_modifyFuture found change
    rw [same] at moved
    exact ((List.perm_append_left_iff _).mp moved).subperm

theorem jobs_newFuture (purpose : Purpose) : (w.newFuture purpose).2.jobs = w.jobs := by
  simp [jobs, newFuture]

theorem jobs_settle : (w.settle f s).jobs.Subperm w.jobs := by
  unfold settle
  split
  · rename_i x found
    split
    · exact .refl _
    · have moved := jobs_modifyFuture found
        (fun x => { x with settled := some s, callbacks := [] })
      exact (jobs_postAll _ _).trans moved.subperm
  · exact .refl _

theorem jobs_onSettled : (w.onSettled f j).jobs.Subperm (j :: w.jobs) := by
  unfold onSettled
  split
  · rename_i x found
    split
    · exact jobs_post _
    · have moved := jobs_modifyFuture found (fun x => { x with callbacks := x.callbacks ++ [j] })
      simp only [List.append_assoc, List.singleton_append] at moved
      exact ((List.perm_append_left_iff _).mp moved).subperm
  · exact List.Subperm.cons_self

theorem insertTimer_perm (t : Timer) (ts : List Timer) : (insertTimer t ts).Perm (t :: ts) := by
  induction ts with
  | nil => exact .refl _
  | cons u rest ih =>
    unfold insertTimer
    split
    · exact (ih.cons u).trans (.swap t u rest)
    · exact .refl _

theorem jobs_schedule (ticks : Nat) : (w.schedule ticks j).jobs.Subperm (j :: w.jobs) := by
  have added := (insertTimer_perm ⟨w.clock + ticks, j⟩ w.agenda.timers).map (·.job)
  simp only [List.map_cons] at added
  refine List.Perm.subperm ?_
  simp only [jobs, schedule]
  refine ((added.append_left _).append_right _).trans ?_
  simp only [List.append_assoc, List.cons_append]
  exact (List.perm_middle.append_left _).trans List.perm_middle

theorem jobs_newTask (r : Routine) :
    (w.newTask r).2.jobs.Subperm (.resume w.futures.size :: w.jobs) := by
  have posted := jobs_post (w := (w.newFuture (.task (.unstarted r) none false)).2)
    (j := .resume w.futures.size) w.agenda.loop
  rw [jobs_newFuture] at posted
  exact posted

theorem jobs_repurpose (p : Purpose) : (w.repurpose f p).jobs.Subperm w.jobs :=
  jobs_modifyFuture_same fun _ => rfl

theorem jobs_setPosition (p : Position) (waiting : Option FutureId) :
    (w.setPosition f p waiting).jobs.Subperm w.jobs := by
  unfold setPosition
  split
  · exact jobs_repurpose _
  · exact .refl _

/-! ### The next job and the next turn -/

/-- Taking a job changes nothing but the queue, at whose head the job stands. -/
theorem nextJob_cases {w' : World} (taken : w.nextJob? = some (j, w')) :
    ∃ left rest, w.agenda.ready = j :: rest ∧ w' = { w with agenda := { w.agenda with ready := rest, left } } := by
  unfold nextJob? at taken
  split at taken
  · rename_i left job rest _ queue
    obtain ⟨rfl, rfl⟩ := Prod.mk.inj (Option.some.inj taken)
    exact ⟨left, rest, queue, rfl⟩
  · cases taken

/-- Before the next turn nothing changes but the clock. -/
theorem nextTurn_cases {w' : World} (next : w.nextTurn? = some w') :
    ∃ n, w.clock ≤ n ∧ w' = { w with clock := n }.beginTurn := by
  unfold nextTurn? at next
  split at next
  · cases next
  · exact ⟨_, Nat.le_max_left _ _, (Option.some.inj next).symm⟩
  · exact ⟨w.clock, Nat.le_refl _, (Option.some.inj next).symm⟩

theorem jobs_nextJob {w' : World} (taken : w.nextJob? = some (j, w')) :
    w.jobs = j :: w'.jobs := by
  obtain ⟨left, rest, queue, rfl⟩ := nextJob_cases taken
  simp only [jobs, queue, List.cons_append]

theorem mem_jobs_of_next {w' : World} (taken : w.nextJob? = some (j, w')) : j ∈ w.jobs := by
  rw [jobs_nextJob taken]
  exact List.mem_cons_self

theorem nextJob_sameRuns {w' : World} (taken : w.nextJob? = some (j, w')) : SameRuns w w' := by
  obtain ⟨left, rest, -, rfl⟩ := nextJob_cases taken
  exact ⟨rfl, rfl, rfl, rfl, rfl, rfl, rfl, rfl⟩

theorem nextJob_futures {w' : World} (taken : w.nextJob? = some (j, w')) :
    w'.futures = w.futures := by
  obtain ⟨left, rest, -, rfl⟩ := nextJob_cases taken
  rfl

theorem jobs_beginTurn : w.beginTurn.jobs.Perm w.jobs := by
  have split := List.span_eq_takeWhile_dropWhile (p := fun t : Timer => decide (t.due ≤ w.clock))
    (l := w.agenda.timers)
  have parts := List.takeWhile_append_dropWhile (p := fun t : Timer => decide (t.due ≤ w.clock))
    (l := w.agenda.timers)
  simp only [jobs, beginTurn, split]
  rw [show w.agenda.timers.map (·.job) = _ from (congrArg (List.map (·.job)) parts).symm,
    List.map_append]
  simp only [List.append_assoc]
  refine List.Perm.append_left _ ?_
  exact List.perm_append_comm_assoc _ _ _

end World

end Conductor
