import Conductor.Proofs.Args
import Conductor.Proofs.Origins

/-!
# Sessions

Whatever a session is asked to do is a series of moves of its machine, by which no dictionary goes. It begins with
a fresh machine, so everything it works on is reachable, and what it answers of its callers is what there was to
see of them in reachable states. A loop of its own gets a number that no future has yet, because every future that
is made belongs to the loop that runs.
-/

namespace Conductor

namespace World

variable {plan : Plan} {w w' w₁ w₂ : World} {f g : FutureId} {j : Job}

/-! ### Loops -/

structure Confined (w w' : World) : Prop where
  loop : w'.agenda.loop = w.agenda.loop
  futures : ∀ f n, w'.loop? f = some n → w.loop? f = some n ∨ n = w.agenda.loop

theorem loop?_settle {s : Settlement} : (w.settle f s).loop? g = w.loop? g := by
  rw [loop?, future?_settle, map_changed Future.loop settledAs_loop, ← loop?]

theorem loop?_onSettled : (w.onSettled f j).loop? g = w.loop? g := by
  rw [loop?, future?_onSettled, map_changed Future.loop calling_loop, ← loop?]

namespace Confined

theorem refl (w : World) : Confined w w := ⟨rfl, fun _ _ => .inl⟩

theorem trans (h : Confined w w₁) (h' : Confined w₁ w₂) : Confined w w₂ := by
  refine ⟨h'.loop.trans h.loop, fun f n own => ?_⟩
  rcases h'.futures f n own with there | new
  · exact h.futures f n there
  · exact .inr (new.trans h.loop)

theorem of_same (loop : w'.agenda.loop = w.agenda.loop) (futures : ∀ f, w'.loop? f = w.loop? f) : Confined w w' :=
  ⟨loop, fun f _ own => .inl ((futures f).symm.trans own)⟩

theorem motion (m : Motion w w') : Confined w w' := by
  induction m with
  | still futures loop _ _ _ => exact of_same loop fun _ => loop?_congr futures
  | posted loop _ => exact of_same (post_sameRuns loop).loop fun _ => loop?_post loop
  | scheduled _ _ => exact of_same rfl fun _ => rfl
  | @made w purpose =>
    refine ⟨rfl, fun f n own => ?_⟩
    rw [loop?, future?_newFuture] at own
    split at own
    · exact .inr (Option.some.inj own).symm
    · exact .inl own
  | settled _ _ => exact of_same settle_sameRuns.loop fun _ => loop?_settle
  | called _ _ => exact of_same onSettled_sameRuns.loop fun _ => loop?_onSettled
  | repurposed _ _ => exact of_same rfl fun _ => loop?_repurpose
  | trans _ _ ih ih' => exact ih.trans ih'

theorem change (c : Change w w') : Confined w w' := by
  cases c with
  | worked effect past => exact (motion (.effect effect)).trans (motion (.handover past))
  | handled _ next rest =>
    refine .trans ?_ (motion (.handled rest))
    obtain ⟨_, _, -, rfl⟩ := nextJob_cases next
    exact of_same rfl fun _ => rfl
  | turned _ next =>
    obtain ⟨_, -, rfl⟩ := nextTurn_cases next
    exact of_same rfl fun _ => rfl

end Confined

/-! ### Work on one loop -/

/-- Whether moves by which no dictionary goes lead from one state to another, while the same loop runs. -/
structure Stint (plan : Plan) (w w' : World) : Prop where
  moves : Relation.ReflTransGen (Keeping plan) w w'
  confined : Confined w w'

theorem Stocked.moves (stocked : Stocked plan w) (moves : Relation.ReflTransGen (Keeping plan) w w') :
    Stocked plan w' := by
  induction moves with
  | refl => exact stocked
  | tail _ last ih => exact .move ih last

namespace Stint

theorem refl (w : World) : Stint plan w w := ⟨.refl, .refl w⟩

theorem stocked (stint : Stint plan w w') (stocked : Stocked plan w) : Stocked plan w' := stocked.moves stint.moves

theorem trans (first : Stint plan w w₁) (rest : Stint plan w₁ w₂) : Stint plan w w₂ :=
  ⟨first.moves.trans rest.moves, first.confined.trans rest.confined⟩

theorem step (stocked : Stocked plan w) (stepped : w.step plan = some w') : Stint plan w w' :=
  ⟨.single ⟨.stepped stepped, fun other => absurd stepped other⟩,
    .change (step_change stocked.reachable.sound.steady stepped)⟩

theorem outside (m : Move plan w w') (heap : w'.heap = w.heap) (motion : Motion w w') : Stint plan w w' :=
  ⟨.single ⟨m, fun _ => Nat.le_of_eq (by rw [heap])⟩, .motion motion⟩

theorem supplied {heap : Heap} (kept : w.heap.Keeps heap) : Stint plan w { w with heap } :=
  ⟨.single ⟨.supplied heap, fun _ => kept.size⟩, .of_same rfl fun _ => rfl⟩

theorem called (r : Routine) (caller : r.isCaller) : Stint plan w (w.newTask r).2 :=
  outside (.called r caller) (Aside.newTask r).heap (.newTask r)

theorem observed (f : FutureId) : Stint plan w (w.onSettled f .stop) :=
  outside (.observed f) (Aside.onSettled f .stop).heap (.asked (fun _ same => nomatch same) (by simp [Job.IsNotice]))

theorem cancelled (f : FutureId) : Stint plan w (w.cancel f) :=
  outside (.cancelled f) (Aside.interrupted (cancel_interrupted f)).heap (.interrupted (cancel_interrupted f))

theorem turned : Stint plan w w.beginTurn :=
  ⟨.single ⟨.turned, fun _ => Nat.le_refl _⟩, .of_same rfl fun _ => rfl⟩

theorem cancelAll (tasks : List FutureId) : Stint plan w (tasks.foldl World.cancel w) := by
  induction tasks generalizing w with
  | nil => exact refl w
  | cons f rest ih => exact (cancelled f).trans ih

theorem work (fuel : Nat) (callers : List Caller) (stocked : Stocked plan w) :
    Stint plan w (work plan fuel callers w).2 := by
  induction fuel generalizing callers w with
  | zero => exact refl w
  | succ fuel ih =>
    unfold World.work
    split
    · exact refl w
    · rename_i w₁ stepped
      have first := step stocked stepped
      exact first.trans (ih _ (first.stocked stocked))

theorem workUntilStopped (fuel : Nat) (stocked : Stocked plan w) :
    Stint plan w (w.workUntilStopped plan fuel).2 := by
  induction fuel generalizing w with
  | zero => exact refl w
  | succ fuel ih =>
    unfold World.workUntilStopped
    split
    · exact refl w
    · split
      · exact refl w
      · rename_i w₁ stepped
        have first := step stocked stepped
        exact first.trans (ih (first.stocked stocked))

theorem finishTurn (fuel : Nat) (stocked : Stocked plan w) : Stint plan w (w.finishTurn plan fuel) := by
  induction fuel generalizing w with
  | zero => exact refl w
  | succ fuel ih =>
    unfold World.finishTurn
    split
    · exact refl w
    · split
      · exact refl w
      · rename_i w₁ stepped
        have first := step stocked stepped
        exact first.trans (ih (first.stocked stocked))

theorem turn (fuel : Nat) (stocked : Stocked plan w) : Stint plan w (w.beginTurn.finishTurn plan fuel) :=
  turned.trans (finishTurn fuel (turned.stocked stocked))

theorem turns (fuel n : Nat) (stocked : Stocked plan w) : Stint plan w (w.turns plan fuel n) := by
  induction n generalizing w with
  | zero => exact refl w
  | succ n ih =>
    have first := turn fuel stocked
    exact first.trans (ih (first.stocked stocked))

theorem turnsUntilEnded (fuel n : Nat) (tasks : List FutureId) (stocked : Stocked plan w) :
    Stint plan w (w.turnsUntilEnded plan fuel tasks n) := by
  induction n generalizing w with
  | zero => exact refl w
  | succ n ih =>
    unfold World.turnsUntilEnded
    split
    · have first := turn fuel stocked
      exact first.trans (ih (first.stocked stocked))
    · exact refl w

end Stint

theorem closeLoop_drops (fuel : Nat) (stocked : Stocked plan w) :
    ∃ w₁, Stint plan w w₁ ∧ w.closeLoop plan fuel = w₁.dropLoop := by
  have cancelled : Stint plan w (w.pendingTasks.foldl cancel w) := .cancelAll _
  have ended := cancelled.trans (.turnsUntilEnded fuel fuel w.pendingTasks (cancelled.stocked stocked))
  have shut := ended.trans (.turns fuel (shutdownTurns !w.pendingTasks.isEmpty) (ended.stocked stocked))
  exact ⟨_, shut, rfl⟩

/-! ### What is seen of callers -/

/-- Whether an observation of a task is what there is to see of it in a state. -/
structure Reveals (w : World) (t : Tree) (task : FutureId) (o : Observation) : Prop where
  ending : w.ending? task = some (o.ending, o.same)
  tick : o.tick = w.clock
  run : o.run = (w.seenRecord? task).map (w.viewRun t)
  nodes : o.nodes = w.viewNodes t

def Seen (plan : Plan) (task : FutureId) (observed : Option Observation) : Prop :=
  ∀ o, observed = some o → ∃ w, Stocked plan w ∧ w.Reveals plan.tree task o

theorem observe_task {t : Tree} {c : Caller} : (w.observe t c).task = c.task := by
  unfold observe
  split <;> rfl

theorem Seen.observe {c : Caller} (seen : Seen plan c.task c.observed) (stocked : Stocked plan w) :
    Seen plan c.task (w.observe plan.tree c).observed := by
  unfold World.observe
  split
  · rename_i ended
    intro o same
    obtain rfl := Option.some.inj same
    exact ⟨w, stocked, ended, rfl, rfl, rfl⟩
  · exact seen

/-- Work keeps the callers, in their order, and sees of them only what there is to see. -/
theorem work_callers (fuel : Nat) {callers : List Caller} (stocked : Stocked plan w)
    (seen : ∀ c ∈ callers, Seen plan c.task c.observed) :
    (work plan fuel callers w).1.map (·.task) = callers.map (·.task) ∧
      ∀ c ∈ (work plan fuel callers w).1, Seen plan c.task c.observed := by
  induction fuel generalizing callers w with
  | zero => exact ⟨rfl, seen⟩
  | succ fuel ih =>
    unfold World.work
    split
    · exact ⟨rfl, seen⟩
    · rename_i w₁ stepped
      have stocked₁ := (Stint.step stocked stepped).stocked stocked
      have seen₁ : ∀ c ∈ callers.map (w₁.observe plan.tree), Seen plan c.task c.observed := by
        simp only [List.forall_mem_map, observe_task]
        exact fun c member => (seen c member).observe stocked₁
      obtain ⟨tasks, seen'⟩ := ih stocked₁ seen₁
      refine ⟨tasks.trans ?_, seen'⟩
      rw [List.map_map]
      exact List.map_congr_left fun c _ => observe_task

end World

/-! ### What is answered -/

def Aftermath.Seen (plan : Plan) (after : Aftermath) : Prop :=
  ∃ w, World.Stocked plan w ∧ after.tick = w.clock ∧ after.final = w.viewLast plan.tree ∧
    after.nodes = w.viewNodes plan.tree

def Answer.Seen (plan : Plan) : Answer → Prop
  | runs callers after => (∀ c ∈ callers, World.Seen plan c.task c.observed) ∧ after.Seen plan
  | alone ending after =>
    (∀ e, ending = some e → ∃ w task, World.Stocked plan w ∧ w.ending? task = some e) ∧ after.Seen plan
  | report r => ∃ w, World.Stocked plan w ∧ (w.lastRun.bind w.record?).map (Report.ofRecord w plan.tree) = r
  | nodes views => ∃ w, World.Stocked plan w ∧ views = w.viewNodes plan.tree
  | shown _ | failed _ => True

/-! ### Operations -/

namespace Session

open World

variable {s : Session} {graph : Literal} {workshop : Workshop} {settings : Settings} {t : Template} {o : Operation}

structure Sound (s : Session) : Prop where
  stocked : Stocked s.plan s.world
  main : s.world.agenda.loop = 0
  loops : ∀ f n, s.world.loop? f = some n → n ≤ s.loops
  seen : ∀ c ∈ s.callers, Seen s.plan c.task c.observed

theorem Sound.stint {w : World} {callers : List Caller} (sound : s.Sound) (stint : Stint s.plan s.world w)
    (seen : ∀ c ∈ callers, Seen s.plan c.task c.observed) : Sound { s with world := w, callers } where
  stocked := stint.stocked sound.stocked
  main := stint.confined.loop.trans sound.main
  loops f n own := by
    rcases stint.confined.futures f n own with there | new
    · exact sound.loops f n there
    · exact (new.trans sound.main).symm ▸ Nat.zero_le _
  seen := seen

theorem create_sound (created : create graph workshop settings = .ok s) : s.Sound := by
  unfold create at created
  split at created
  · cases created
  · rename_i item workshop' made
    obtain ⟨tree, -, created⟩ := bind_ok created
    obtain rfl := Except.ok.inj created
    exact ⟨.fresh ⟨rfl, rfl, rfl, rfl, rfl, rfl⟩, rfl, fun f n own => by simp [loop?, future?] at own,
      fun c member => absurd member List.not_mem_nil⟩

/-- A session compiles a graph that meets what is supposed of graphs: the objects of its normal form, and those that
become nodes, are told apart, and every node declares each of its outputs once. -/
theorem create_graph {pool : List Item} (tidy : workshop.Tidy pool) (created : create graph workshop settings = .ok s) :
    ∃ item items, item.walk = .ok items ∧ Graph.compile item = .ok s.plan.tree ∧
      Item.ToldApart (Reading.objectsOf (Reading.normal items)) ∧ Item.ToldApart (Graph.sources items) ∧
      s.plan.tree.Declares := by
  unfold create at created
  split at created
  · cases created
  · rename_i item workshop' made
    obtain ⟨tree, compiled, created⟩ := bind_ok created
    obtain rfl := Except.ok.inj created
    cases walked : item.walk with
    | error f =>
      rw [Graph.compile, walked] at compiled
      cases compiled
    | ok items =>
      have built := compiled
      rw [Graph.compile, walked] at built
      obtain rfl := Except.ok.inj built
      exact ⟨item, items, walked, compiled, Graph.made_graph tidy (by rw [made]) walked⟩

theorem startCallers_stint (plan : Plan) (w : World) {starts : List (Template × (Value → Routine))}
    (kinds : ∀ start ∈ starts, ∀ v, (start.2 v).isCaller) :
    Stint plan w (startCallers starts w).2 ∧
      ∀ callers, (startCallers starts w).1 = .ok callers → ∀ c ∈ callers, c.observed = none := by
  induction starts generalizing w with
  | nil =>
    refine ⟨.refl w, fun callers same c member => ?_⟩
    obtain rfl := Except.ok.inj same
    cases member
  | cons start rest ih =>
    obtain ⟨t, routine⟩ := start
    obtain ⟨kind, kinds'⟩ := List.forall_mem_cons.mp kinds
    have kept := Template.eval_keeps {} t w.heap
    unfold startCallers
    split <;> rename_i heap made <;> rw [Template.make] at made <;> rw [made] at kept
    · exact ⟨.supplied kept, fun _ same => nomatch same⟩
    · rename_i v
      have first : Stint plan w (World.newTask { w with heap } (routine v)).2 :=
        (Stint.supplied kept).trans (.called (routine v) (kind v))
      obtain ⟨others, unseen⟩ := ih (w := (World.newTask { w with heap } (routine v)).2) kinds'
      dsimp only
      split <;> rename_i w₁ result <;> rw [result] at others unseen
      · exact ⟨first.trans others, fun _ same => nomatch same⟩
      · refine ⟨first.trans others, fun callers same => ?_⟩
        obtain rfl := Except.ok.inj same
        exact List.forall_mem_cons.mpr ⟨rfl, unseen _ rfl⟩

theorem aftermath_seen (sound : s.Sound) (known : Nat) : (s.aftermath known).Seen s.plan :=
  ⟨s.world, sound.stocked, rfl, rfl, rfl⟩

theorem runCallers_sound {starts : List (Template × (Value → Routine))} (sound : s.Sound)
    (kinds : ∀ start ∈ starts, ∀ v, (start.2 v).isCaller) :
    (s.runCallers starts).2.Sound ∧ (s.runCallers starts).2.plan = s.plan ∧ (s.runCallers starts).1.Seen s.plan := by
  obtain ⟨started, unseen⟩ := startCallers_stint s.plan s.world kinds
  unfold runCallers
  dsimp only
  split <;> rename_i w₁ result <;> rw [result] at started unseen
  · exact ⟨sound.stint started sound.seen, rfl, trivial⟩
  · rename_i callers
    have all : ∀ c ∈ s.callers ++ callers, Seen s.plan c.task c.observed := by
      intro c member
      rcases List.mem_append.mp member with old | new
      · exact sound.seen c old
      · exact fun o same => nomatch (unseen callers rfl c new).symm.trans same
    obtain ⟨-, seen⟩ := work_callers (w := w₁) fuel (started.stocked sound.stocked) all
    have worked := started.trans (.work fuel (s.callers ++ callers) (started.stocked sound.stocked))
    refine ⟨sound.stint worked seen, rfl, ?_, aftermath_seen (sound.stint worked seen) _⟩
    simp only [List.forall_mem_map]
    exact fun c member => seen c (List.mem_of_mem_drop member)

theorem Sound.opened {heap : Heap} (sound : s.Sound) (kept : s.world.heap.Keeps heap) :
    Stocked s.plan (World.openLoop { s.world with heap } (s.loops + 1)) := by
  have supplied : Stint s.plan s.world { s.world with heap } := .supplied kept
  have new : ∀ f x, World.future? { s.world with heap } f = some x → x.loop ≠ s.loops + 1 := by
    intro f x found same
    have bound := sound.loops f x.loop (by rw [loop?, show s.world.future? f = some x from found]; rfl)
    omega
  exact .move (supplied.stocked sound.stocked)
    ⟨.opened (s.loops + 1) sound.main (Nat.succ_ne_zero _) new, fun _ => Nat.le_refl _⟩

/-- When a loop of its own is dropped, the session is as sound as before. -/
theorem Sound.closed {heap : Heap} {w : World} (sound : s.Sound) (kept : s.world.heap.Keeps heap)
    (stint : Stint s.plan (World.openLoop { s.world with heap } (s.loops + 1)) w) :
    Sound { s with world := w.dropLoop, loops := s.loops + 1 } where
  stocked := by
    have alone : w.agenda.loop ≠ 0 := by
      rw [stint.confined.loop]
      exact Nat.succ_ne_zero _
    exact .move (stint.stocked (sound.opened kept)) ⟨.closed alone, fun _ => Nat.le_refl _⟩
  main := rfl
  loops f n own := by
    rcases stint.confined.futures f n own with old | new
    · exact Nat.le_succ_of_le (sound.loops f n old)
    · exact Nat.le_of_eq new
  seen := sound.seen

theorem runAlone_sound (sound : s.Sound) (t : Template) :
    (s.runAlone t).2.Sound ∧ (s.runAlone t).2.plan = s.plan ∧ (s.runAlone t).1.Seen s.plan := by
  have kept := Template.eval_keeps {} t s.world.heap
  unfold runAlone
  dsimp only
  split <;> rename_i heap made <;> rw [Template.make] at made <;> rw [made] at kept
  · exact ⟨sound.stint (.supplied kept) sound.seen, rfl, trivial⟩
  · rename_i v
    have opened := sound.opened kept
    generalize start : World.openLoop { s.world with heap } (s.loops + 1) = w at opened
    have called : Stint s.plan w (w.newTask (.runner v)).2 := .called _ rfl
    have told := called.trans (.observed (w.newTask (.runner v)).1)
    have worked := told.trans (.workUntilStopped fuel (told.stocked opened))
    obtain ⟨w', closing, dropped⟩ := closeLoop_drops fuel (worked.stocked opened)
    have sound' := sound.closed kept (start.symm ▸ worked.trans closing)
    dsimp only
    rw [dropped]
    refine ⟨sound', rfl, fun e same => ?_, aftermath_seen sound' _⟩
    split at same
    · exact ⟨_, _, worked.stocked opened, same⟩
    · cases same

/-- An operation leaves a sound session for the same graph, and answers what there is to see. -/
theorem perform_sound (sound : s.Sound) (o : Operation) :
    (s.perform o).2.Sound ∧ (s.perform o).2.plan = s.plan ∧ (s.perform o).1.Seen s.plan := by
  cases o with
  | run args => exact runCallers_sound sound (by simp [Routine.isCaller])
  | overlap runs =>
    refine runCallers_sound sound ?_
    simp only [List.forall_mem_map]
    intro run _ v
    unfold delayedRun
    split <;> rfl
  | execute args => exact runCallers_sound sound (by simp [Routine.isCaller])
  | alone args => exact runAlone_sound sound args
  | report =>
    unfold perform
    dsimp only
    split
    · rename_i r reported
      refine ⟨sound, rfl, ?_⟩
      dsimp only
      split
      · trivial
      · exact ⟨s.world, sound.stocked, reported⟩
    · exact ⟨sound, rfl, s.world, sound.stocked, rfl⟩
  | reset =>
    have cleared : Stocked s.plan s.world.resetNodes :=
      .move sound.stocked ⟨.cleared, fun _ => Nat.le_refl _⟩
    exact ⟨⟨cleared, sound.main, sound.loops, sound.seen⟩, rfl, _, cleared, rfl⟩
  | shown => exact ⟨sound, rfl, trivial⟩

theorem performEach_sound (sound : s.Sound) (os : List Operation) :
    (s.performEach os).2.Sound ∧ (s.performEach os).2.plan = s.plan ∧ ∀ a ∈ (s.performEach os).1, a.Seen s.plan := by
  induction os generalizing s with
  | nil => exact ⟨sound, rfl, fun a member => absurd member List.not_mem_nil⟩
  | cons o os ih =>
    obtain ⟨sound₁, plan₁, seen₁⟩ := perform_sound sound o
    obtain ⟨sound₂, plan₂, seen₂⟩ := ih sound₁
    rw [plan₁] at plan₂ seen₂
    exact ⟨sound₂, plan₂, List.forall_mem_cons.mpr ⟨seen₁, seen₂⟩⟩

theorem settleAnswer_seen (sound : s.Sound) {a : Answer} (seen : a.Seen s.plan) : (s.settleAnswer a).Seen s.plan := by
  cases a with
  | runs callers after =>
    obtain ⟨seen, later⟩ := seen
    refine ⟨?_, later⟩
    simp only [List.forall_mem_map]
    intro c member
    unfold settleCaller
    split
    · rename_i known found
      have same : known.task = c.task := by simpa using List.find?_some found
      exact same ▸ sound.seen known (List.mem_of_find?_eq_some found)
    · exact seen c member
  | _ => exact seen

/-- Whatever a session has been asked, it works in a reachable state, and all its answers are what there was to
see in reachable states. -/
theorem performAll_seen (created : create graph workshop settings = .ok s) (os : List Operation) :
    Stocked s.plan (s.performAll os).2.world ∧ ∀ a ∈ (s.performAll os).1, a.Seen s.plan := by
  obtain ⟨sound, plan, seen⟩ := performEach_sound (create_sound created) os
  unfold performAll
  simp only [List.forall_mem_map]
  refine ⟨plan ▸ sound.stocked, fun a member => ?_⟩
  have settled := settleAnswer_seen sound (a := a) (plan.symm ▸ seen a member)
  exact plan ▸ settled

end Session

end Conductor
